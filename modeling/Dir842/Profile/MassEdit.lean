import Dir842.Lib.Run
import Mathlib.Data.List.Nodup
import Mathlib.Logic.Function.Basic

/-!
# Options added to many profiles (`mass_edit`)

`mass_edit` looks for the profiles that have some options, appends other options to their files, and
lets `make olddefconfig` put each file in order.
-/

namespace Dir842.MassEdit

abbrev Word := List Char
abbrev Name := List Char
abbrev Content := List Char

/-! ### The shell -/

/-- The words of a text, where `IFS` has white space only. -/
def splitWords (ifs text : List Char) : List Word :=
  (text.splitOnP fun c => ifs.contains c).filter (· ≠ [])

/-- `echo "$text"`; a `-n` or `-e` is taken for an option. -/
def echo (text : List Char) : List Char :=
  match text with
  | '-' :: c :: cs =>
    if (c :: cs).all fun c => ['n', 'e', 'E'].contains c then
      if (c :: cs).contains 'n' then [] else ['\n']
    else text ++ ['\n']
  | _ => text ++ ['\n']

structure Tools where
  /-- Whether a pattern of the shell matches a path. -/
  fnmatch : Word → Word → Bool
  /-- Whether `grep -q` finds a pattern in a file. -/
  grep : Word → Content → Bool
  md5sum : Content → List Char

/-- A directory below `profiles`, with what happens when its turn comes. -/
structure Profile where
  name : Name
  /-- The paths that patterns are compared with. -/
  paths : List Word
  /-- `make olddefconfig`: whether it ends well, and what it makes of the file. -/
  olddefconfig : Option Content → Bool × Option Content

/-- Pathname expansion. A pattern that matches nothing stays as it is. -/
def expand (tools : Tools) (p : Profile) (w : Word) : List Word :=
  if w.any fun c => ['*', '?', '['].contains c then
    match p.paths.filter (tools.fnmatch w) with
    | [] => [w]
    | found => found
  else [w]

/-! ### `mass_edit` -/

inductive Report | skipped | failed | updated
deriving DecidableEq

structure Shell where
  ifs : List Char
  total : ℕ
  updated : ℕ
  /-- `./profiles/$profile/$profile` -/
  files : Name → Option Content
  output : List (Name × Report)

def Shell.start (files : Name → Option Content) : Shell where
  ifs := [' ', '\t', '\n']
  total := 0
  updated := 0
  files := files
  output := []

def Shell.write (sh : Shell) (name : Name) (file : Option Content) : Shell :=
  { sh with files := Function.update sh.files name file }

def Shell.append (sh : Shell) (name : Name) (text : List Char) : Shell :=
  sh.write name (some ((sh.files name).getD [] ++ text))

theorem Shell.files_write_self (sh : Shell) (name : Name) (file : Option Content) :
    (sh.write name file).files name = file := Function.update_self ..

theorem Shell.files_append_self (sh : Shell) (name : Name) (text : List Char) :
    (sh.append name text).files name = some ((sh.files name).getD [] ++ text) :=
  Function.update_self ..

/-- What has been appended does not show after the file has been written. -/
theorem Shell.write_append (sh : Shell) (name : Name) (text : List Char) (file : Option Content) :
    (sh.append name text).write name file = sh.write name file :=
  congrArg (fun files => { sh with files }) (Function.update_idem ..)

def Shell.print (sh : Shell) (name : Name) (report : Report) : Shell :=
  { sh with output := sh.output ++ [(name, report)] }

section
variable (tools : Tools) (find options : List Char)

/-- The exit status of `grep -q`; there is nothing to be found in a file that is missing. -/
def found (file : Option Content) (w : Word) : Bool := file.any (tools.grep w)

/-- The early `return` leaves `IFS` as it is. -/
def checkProfile (p : Profile) (sh : Shell) : Bool × Shell :=
  let oldIfs := sh.ifs
  let sh : Shell := { sh with ifs := ['\n'] }
  if ((splitWords sh.ifs find).flatMap (expand tools p)).all (found tools (sh.files p.name)) then
    (true, { sh with ifs := oldIfs })
  else (false, sh)

/-- The body of the loop of `updating`. -/
def round (sh : Shell) (p : Profile) : Shell :=
  let sh : Shell := { sh with total := sh.total + 1 }
  let md5before := (sh.files p.name).map tools.md5sum
  match checkProfile tools find p sh with
  | (false, sh) => sh.print p.name .skipped
  | (true, sh) =>
    let sh := sh.append p.name (echo options)
    let (ended, after) := p.olddefconfig (sh.files p.name)
    let sh := sh.write p.name after
    if !ended then sh.print p.name .failed
    else
      let md5after := (sh.files p.name).map tools.md5sum
      if md5before = md5after then sh.print p.name .skipped
      else ({ sh with updated := sh.updated + 1 } : Shell).print p.name .updated

/-- The shell after the loop. -/
def updating (sh : Shell) (profiles : List Profile) : Shell :=
  Run.final (round tools find options) sh profiles

end

/-! ### Find options -/

/-- What `prepare` makes of the argument of `-f` or `-o`. -/
def ofArgument (optarg : List Char) : List Char := optarg.map fun c => if c = ';' then '\n' else c

/-- The find options, one in a line. -/
def findOptions (find : List Char) : List Word := (find.splitOn '\n').filter (· ≠ [])

theorem ofArgument_intercalate {opts : List Word} (h : ∀ w ∈ opts, ';' ∉ w) :
    ofArgument ([';'].intercalate opts) = ['\n'].intercalate opts := by
  have hself : ∀ w : Word, ';' ∉ w → ofArgument w = w := fun w hw =>
    (List.map_congr_left fun c hc => if_neg (ne_of_mem_of_not_mem hc hw)).trans (List.map_id w)
  induction opts with
  | nil => rfl
  | cons w opts ih =>
    obtain ⟨hw, hopts⟩ := List.forall_mem_cons.mp h
    rcases opts with _ | ⟨v, opts⟩
    · rw [List.intercalate_singleton, List.intercalate_singleton, hself w hw]
    · rw [List.intercalate_cons_cons, List.intercalate_cons_cons, ← ih hopts, ofArgument,
        List.map_append, List.map_append]
      exact congrArg (· ++ _) (congrArg (· ++ _) (hself w hw))

/-- Any options can be given. -/
theorem findOptions_ofArgument {opts : List Word} (h : ∀ w ∈ opts, w ≠ [] ∧ ';' ∉ w ∧ '\n' ∉ w) :
    findOptions (ofArgument ([';'].intercalate opts)) = opts := by
  rw [ofArgument_intercalate fun w hw => (h w hw).2.1, findOptions]
  by_cases hopts : opts = []
  · rw [hopts]
    rfl
  · rw [List.splitOn_intercalate '\n' (fun w hw => (h w hw).2.2) hopts]
    exact List.filter_eq_self.mpr fun w hw => by simpa using (h w hw).1

/-! ### One round -/

theorem splitWords_newline (find : List Char) : splitWords ['\n'] find = findOptions find := by
  have hsep : (fun c => ['\n'].contains c) = fun c : Char => c == '\n' :=
    funext fun c => Bool.or_false _
  rw [splitWords, hsep]
  rfl

section
variable (tools : Tools) (find options : List Char)

def considered (p : Profile) (file : Option Content) : Bool :=
  ((findOptions find).flatMap (expand tools p)).all (found tools file)

def appended (file : Option Content) : Option Content := some (file.getD [] ++ echo options)

/-- What a round reports, and what it leaves in the file. -/
def outcome (p : Profile) (file : Option Content) : Report × Option Content :=
  if considered tools find p file then
    let (ended, after) := p.olddefconfig (appended options file)
    if !ended then (.failed, after)
    else if file.map tools.md5sum = after.map tools.md5sum then (.skipped, after)
    else (.updated, after)
  else (.skipped, file)

variable {tools find options} {sh : Shell} {p : Profile}

theorem checkProfile_eq : checkProfile tools find p sh =
    if considered tools find p (sh.files p.name) then (true, sh)
    else (false, { sh with ifs := ['\n'] }) := by
  rw [checkProfile, considered, ← splitWords_newline]

/-- All that a round does; what is in `IFS` does not matter. -/
theorem round_eq : ∃ ifs, round tools find options sh p =
    { ifs
      total := sh.total + 1
      updated := sh.updated +
        if (outcome tools find options p (sh.files p.name)).1 = .updated then 1 else 0
      files := Function.update sh.files p.name (outcome tools find options p (sh.files p.name)).2
      output := sh.output ++ [(p.name, (outcome tools find options p (sh.files p.name)).1)] } := by
  rw [round, checkProfile_eq, outcome]
  by_cases hc : considered tools find p (sh.files p.name)
  · refine ⟨sh.ifs, ?_⟩
    rcases hmake : p.olddefconfig (appended options (sh.files p.name)) with ⟨ended, after⟩
    rw [appended] at hmake
    simp only [if_pos hc, Shell.files_append_self, hmake, Shell.write_append,
      Shell.files_write_self]
    cases ended with
    | false => rfl
    | true =>
      by_cases hmd5 : (sh.files p.name).map tools.md5sum = after.map tools.md5sum
      · simp only [if_pos hmd5]
        rfl
      · simp only [if_neg hmd5]
        rfl
  · refine ⟨['\n'], ?_⟩
    rw [if_neg hc, if_neg hc, Function.update_eq_self]
    rfl

theorem files_round_self : (round tools find options sh p).files p.name =
    (outcome tools find options p (sh.files p.name)).2 := by
  obtain ⟨ifs, h⟩ := @round_eq tools find options sh p
  rw [h]
  exact Function.update_self ..

theorem files_round_of_ne {name : Name} (hname : name ≠ p.name) :
    (round tools find options sh p).files name = sh.files name := by
  obtain ⟨ifs, h⟩ := @round_eq tools find options sh p
  rw [h]
  exact Function.update_of_ne hname ..

theorem output_round : (round tools find options sh p).output =
    sh.output ++ [(p.name, (outcome tools find options p (sh.files p.name)).1)] := by
  obtain ⟨ifs, h⟩ := @round_eq tools find options sh p
  rw [h]

/-- The counters go with what is printed. -/
structure Counted (sh : Shell) : Prop where
  total_eq : sh.total = sh.output.length
  updated_eq : sh.updated = sh.output.countP fun line => line.2 = .updated

theorem Counted.round (h : Counted sh) (p : Profile) :
    Counted (round tools find options sh p) := by
  obtain ⟨ifs, hround⟩ := @round_eq tools find options sh p
  rw [hround]
  constructor
  · show sh.total + 1 = _
    rw [h.total_eq, List.length_append]
    rfl
  · show sh.updated + _ = _
    rw [h.updated_eq, List.countP_append, List.countP_singleton]
    simp only [decide_eq_true_eq]

/-! ### What is right -/

theorem considered_iff {file : Option Content} : considered tools find p file ↔
    ∀ w ∈ findOptions find, ∀ v ∈ expand tools p w, found tools file v := by
  rw [considered, List.all_eq_true]
  constructor
  · intro h w hw v hv
    exact h v (List.mem_flatMap.mpr ⟨w, hw, hv⟩)
  · intro h v hv
    obtain ⟨w, hw, hv⟩ := List.mem_flatMap.mp hv
    exact h w hw v hv

end

/-- Profiles in the order in which `find` gives them. -/
structure Profiles where
  list : List Profile
  nodup : (list.map Profile.name).Nodup

section
variable (tools : Tools) (find options : List Char)

/-- A profile that is not updated is as before, and the others are counted. -/
structure Right (profiles : Profiles) (before : Name → Option Content) (after : Shell) : Prop where
  /-- At each turn, the options are added exactly if all find options are found. -/
  considered_iff : Run.Along (round tools find options)
    (fun sh p => (checkProfile tools find p sh).1 ↔
      ∀ w ∈ findOptions find, found tools (sh.files p.name) w) (.start before) profiles.list
  files_eq : ∀ p ∈ profiles.list, ∀ report, (p.name, report) ∈ after.output → report ≠ .updated →
    after.files p.name = before p.name
  updated_eq : after.updated = profiles.list.countP fun p => after.files p.name ≠ before p.name
  countP_output : after.output.countP (fun line => line.2 = .updated) = after.updated

/-- What the rest of the system has to do for a profile to be right. -/
structure Safe (p : Profile) (file : Option Content) : Prop where
  /-- Files with the name of a find option do not matter. -/
  expand_iff : (∀ w ∈ findOptions find, ∀ v ∈ expand tools p w, found tools file v) ↔
    ∀ w ∈ findOptions find, found tools file w
  /-- The file is brought back, or it is changed and its sum as well. -/
  olddefconfig : (∀ w ∈ findOptions find, ∀ v ∈ expand tools p w, found tools file v) →
    (p.olddefconfig (appended options file)).2 = file ∨
      (p.olddefconfig (appended options file)).1 = true ∧
        file.map tools.md5sum ≠ (p.olddefconfig (appended options file)).2.map tools.md5sum

variable {tools find options} {p : Profile} {file : Option Content}

theorem ne_of_updated (h : (outcome tools find options p file).1 = .updated) :
    (outcome tools find options p file).2 ≠ file := by
  rw [outcome] at h ⊢
  split_ifs at h ⊢ with hc
  rcases hmake : p.olddefconfig (appended options file) with ⟨ended, after⟩
  simp only [hmake] at h ⊢
  split_ifs at h ⊢ with hended hmd5
  rintro rfl
  exact hmd5 rfl

theorem outcome_iff : ((outcome tools find options p file).1 ≠ .updated →
    (outcome tools find options p file).2 = file) ↔
    (considered tools find p file → (p.olddefconfig (appended options file)).2 = file ∨
      (p.olddefconfig (appended options file)).1 = true ∧
        file.map tools.md5sum ≠ (p.olddefconfig (appended options file)).2.map tools.md5sum) := by
  rw [outcome]
  split_ifs with hc
  · rcases p.olddefconfig (appended options file) with ⟨ended, after⟩
    cases ended with
    | false => simp [hc]
    | true =>
      by_cases hmd5 : file.map tools.md5sum = after.map tools.md5sum
      · simp [hc, hmd5]
      · simp [hc, hmd5]
  · simp [hc]

end

section
variable {tools : Tools} {find options : List Char} {profiles : Profiles}
  {before : Name → Option Content}

theorem output_updating : (updating tools find options (.start before) profiles.list).output =
    profiles.list.map fun p => (p.name, (outcome tools find options p (before p.name)).1) :=
  @Run.final_log _ _ (round tools find options) _ _ _ Shell.files Profile.name _ _
    (fun _ _ _ => files_round_of_ne) Shell.output
    (fun p file => (p.name, (outcome tools find options p file).1)) (fun _ _ => output_round)
    profiles.nodup

theorem files_updating {p : Profile} (hp : p ∈ profiles.list) :
    (updating tools find options (.start before) profiles.list).files p.name =
      (outcome tools find options p (before p.name)).2 :=
  @Run.final_own _ _ (round tools find options) _ _ Shell.files Profile.name
    (fun p file => (outcome tools find options p file).2) _ _ (fun _ _ => files_round_self)
    (fun _ _ _ => files_round_of_ne) profiles.nodup _ hp

theorem counted_updating :
    Counted (updating tools find options (.start before) profiles.list) :=
  Run.inv_final (fun _ p h => h.round p) ⟨rfl, rfl⟩

/-- Exactly one report for each profile. -/
theorem mem_output_iff {p : Profile} (hp : p ∈ profiles.list) {report : Report} :
    (p.name, report) ∈ (updating tools find options (.start before) profiles.list).output ↔
      report = (outcome tools find options p (before p.name)).1 := by
  rw [output_updating, List.mem_map]
  constructor
  · rintro ⟨q, hq, heq⟩
    obtain ⟨hname, rfl⟩ := Prod.mk.inj heq
    rw [List.inj_on_of_nodup_map profiles.nodup hq hp hname]
  · rintro rfl
    exact ⟨p, hp, rfl⟩

theorem along_considered_iff : Run.Along (round tools find options)
    (fun sh p => (checkProfile tools find p sh).1 ↔
      ∀ w ∈ findOptions find, found tools (sh.files p.name) w) (.start before) profiles.list ↔
    ∀ p ∈ profiles.list,
      ((∀ w ∈ findOptions find, ∀ v ∈ expand tools p w, found tools (before p.name) v) ↔
        ∀ w ∈ findOptions find, found tools (before p.name) w) := by
  have hcheck : ∀ (sh : Shell) (p : Profile), (checkProfile tools find p sh).1 ↔
      ∀ w ∈ findOptions find, ∀ v ∈ expand tools p w, found tools (sh.files p.name) v := by
    intro sh p
    rw [← considered_iff, checkProfile_eq]
    split_ifs with h
    · exact iff_of_true rfl h
    · exact iff_of_false not_false h
  exact @Run.along_own_iff _ _ (round tools find options) _ _ Shell.files Profile.name
    (.start before) profiles.list (fun _ _ _ => files_round_of_ne) _
    (fun p file => (∀ w ∈ findOptions find, ∀ v ∈ expand tools p w, found tools file v) ↔
      ∀ w ∈ findOptions find, found tools file w)
    (fun sh p => iff_congr (hcheck sh p) Iff.rfl) profiles.nodup

/-- Where only updated profiles are changed, as many are changed as are counted. -/
theorem updated_updating (h : ∀ p ∈ profiles.list,
    (outcome tools find options p (before p.name)).1 ≠ .updated →
      (outcome tools find options p (before p.name)).2 = before p.name) :
    (updating tools find options (.start before) profiles.list).updated =
      profiles.list.countP fun p =>
        (updating tools find options (.start before) profiles.list).files p.name ≠
          before p.name := by
  rw [counted_updating.updated_eq, output_updating, List.countP_map]
  refine List.countP_congr fun p hp => ?_
  rw [Function.comp_apply, decide_eq_true_eq, decide_eq_true_eq, files_updating hp]
  exact ⟨ne_of_updated, fun hne => of_not_not fun hreport => hne (h p hp hreport)⟩

/-- Everything is right exactly if each profile is safe: no file in the current directory stands in
for a find option, and `make olddefconfig` ends well, with a new sum, or brings the file back. -/
theorem right_iff_safe (tools : Tools) (find options : List Char) (profiles : Profiles)
    (before : Name → Option Content) :
    Right tools find options profiles before
        (updating tools find options (.start before) profiles.list) ↔
      ∀ p ∈ profiles.list, Safe tools find options p (before p.name) := by
  constructor
  · intro h p hp
    refine ⟨along_considered_iff.mp h.considered_iff p hp, ?_⟩
    rw [← considered_iff]
    refine outcome_iff.mp fun hreport => ?_
    rw [← files_updating hp]
    exact h.files_eq p hp _ ((mem_output_iff hp).mpr rfl) hreport
  · intro h
    have hfile : ∀ p ∈ profiles.list, (outcome tools find options p (before p.name)).1 ≠ .updated →
        (outcome tools find options p (before p.name)).2 = before p.name := by
      intro p hp
      refine outcome_iff.mpr ?_
      rw [considered_iff]
      exact (h p hp).olddefconfig
    refine ⟨along_considered_iff.mpr fun p hp => (h p hp).expand_iff, ?_, updated_updating hfile,
      counted_updating.updated_eq.symm⟩
    intro p hp report hreport hne
    obtain rfl := (mem_output_iff hp).mp hreport
    rw [files_updating hp]
    exact hfile p hp hne

end

/-- Its configuration cannot be made, and the file is left alone. -/
def failing : Profiles where
  list := [⟨"DIR_842".toList, [], fun file => (false, file)⟩]
  nodup := List.nodup_singleton _

/-- `BR2_B=y` stays in the file. -/
theorem not_right_failing : ¬ ∀ (tools : Tools) (find options : List Char) (profiles : Profiles)
    (before : Name → Option Content), Right tools find options profiles before
      (updating tools find options (.start before) profiles.list) := by
  intro h
  have hright := h ⟨fun _ _ => false, fun _ _ => true, id⟩ "BR2_A".toList "BR2_B=y".toList failing
    fun _ => some "BR2_A=y\n".toList
  have hfile := hright.files_eq _ (List.mem_singleton.mpr rfl) .failed
    ((mem_output_iff (List.mem_singleton.mpr rfl)).mpr rfl) nofun
  rw [files_updating (List.mem_singleton.mpr rfl)] at hfile
  exact absurd hfile (by decide)

end Dir842.MassEdit
