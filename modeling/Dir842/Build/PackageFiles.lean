import Dir842.Build.Stamps
import Dir842.Lib.Scan

/-!
# Which package a file of the target is from (`Makefile.package.in`)

With `BR2_BUILD_STATS`, the start of a package's build step writes the MD5 sums of the files in the
target to `.br_filelist_before`, and the end of its installation to the target appends the files
that are not in it as they are now to `packages-file-list.txt`. The commands are those of `make`
invocations on any packages, one after the other; each may change the target as it likes, and may
fail when it has. The target is never without a file, so that `md5sum` is given names.
-/

namespace Dir842.PackageFiles
open Run
open Stamps (Stamp Cmd)

/-! ### The lines of a list -/

def isBlank (c : Char) : Bool := c = ' ' || c = '\t'

def isPlain (c : Char) : Bool := c ≠ '\\' && c ≠ '\n'

/-- A name that `md5sum` prints as it is and `read` reads as it is. -/
@[ext]
structure FileName where
  text : List Char
  plain : ∀ c ∈ text, isPlain c = true
  head : ∀ c ∈ text.head?, isBlank c = false
  last : ∀ c ∈ text.getLast?, isBlank c = false
deriving DecidableEq

@[ext]
structure Md5 where
  text : List Char
  ne_nil : text ≠ []
  isAlphanum : ∀ c ∈ text, c.isAlphanum = true
deriving DecidableEq

theorem Md5.not_isBlank_of_mem (h : Md5) : ∀ c ∈ h.text, isBlank c = false := by
  intro c hc
  have hne : ∀ d, d.isAlphanum = false → c ≠ d :=
    fun d => Scan.ne_of_true_of_false (h.isAlphanum c hc)
  unfold isBlank
  rw [Bool.or_eq_false_iff, decide_eq_false_iff_not, decide_eq_false_iff_not]
  exact ⟨hne _ rfl, hne _ rfl⟩

theorem Md5.not_backslash_of_mem (h : Md5) : ∀ c ∈ h.text, c ≠ '\\' :=
  fun c hc => Scan.ne_of_true_of_false (h.isAlphanum c hc) rfl

/-- The line of `md5sum`. -/
def md5Line (h : Md5) (f : FileName) : List Char := h.text ++ ' ' :: ' ' :: f.text

/-- The characters of a line for `read`; one after a backslash is taken literally. -/
def unquote : List Char → List (Char × Bool)
  | [] => []
  | '\\' :: [] => []
  | '\\' :: c :: s => (c, true) :: unquote s
  | c :: s => (c, false) :: unquote s

def splits (c : Char × Bool) : Bool := !c.2 && isBlank c.1

/-- `read hash file` -/
def readLine (s : List Char) : List Char × List Char :=
  let s := (unquote s).dropWhile splits
  let file := (s.dropWhile fun c => !splits c).dropWhile splits
  ((s.takeWhile fun c => !splits c).map Prod.fst,
    ((file.reverse.dropWhile splits).reverse).map Prod.fst)

theorem unquote_eq_map {s : List Char} (hs : ∀ c ∈ s, c ≠ '\\') :
    unquote s = s.map (·, false) := by
  induction s with
  | nil => rfl
  | cons c s ih =>
    obtain ⟨hc, hs⟩ := List.forall_mem_cons.mp hs
    rw [unquote, ih hs]
    · rfl
    · exact fun h _ => hc h
    · exact fun _ _ h _ => hc h

theorem readLine_of_plain {s : List Char} (hs : ∀ c ∈ s, c ≠ '\\') :
    readLine s =
      let t := s.dropWhile isBlank
      (t.takeWhile (!isBlank ·),
        (((t.dropWhile (!isBlank ·)).dropWhile isBlank).reverse.dropWhile isBlank).reverse) := by
  have hsplits : (fun c => splits (c, false)) = isBlank := rfl
  have hword : (fun c => !splits (c, false)) = (!isBlank ·) := rfl
  unfold readLine
  rw [unquote_eq_map hs]
  simp only [List.dropWhile_map, List.takeWhile_map, ← List.map_reverse, List.map_map,
    Function.comp_def, hsplits, hword, List.map_id']

theorem readLine_md5Line (h : Md5) (f : FileName) : readLine (md5Line h f) = (h.text, f.text) := by
  have hplain : ∀ c ∈ md5Line h f, c ≠ '\\' := by
    intro c hc
    rcases List.mem_append.mp hc with hc | hc
    · exact h.not_backslash_of_mem c hc
    · rcases List.mem_cons.mp hc with rfl | hc
      · decide
      · rcases List.mem_cons.mp hc with rfl | hc
        · decide
        · exact Scan.ne_of_true_of_false (f.plain c hc) rfl
  have hhead : ∀ c ∈ (md5Line h f).head?, isBlank c = false := by
    intro c hc
    rw [md5Line, List.head?_append_of_ne_nil _ h.ne_nil] at hc
    exact h.not_isBlank_of_mem c (List.mem_of_head? hc)
  have hspan : (md5Line h f).span (!isBlank ·) = (h.text, ' ' :: ' ' :: f.text) :=
    Scan.span_append (fun c hc => by rw [h.not_isBlank_of_mem c hc]; rfl)
      fun c hc => Option.some.inj hc ▸ rfl
  rw [List.span_eq_takeWhile_dropWhile, Prod.mk.injEq] at hspan
  have hfile : (' ' :: ' ' :: f.text).dropWhile isBlank = f.text := by
    rw [List.dropWhile_cons_of_pos rfl, List.dropWhile_cons_of_pos rfl,
      Scan.dropWhile_eq_self f.head]
  have hlast : ∀ c ∈ f.text.reverse.head?, isBlank c = false := by
    rw [List.head?_reverse]
    exact f.last
  rw [readLine_of_plain hplain]
  dsimp only
  rw [Scan.dropWhile_eq_self hhead, hspan.1, hspan.2, hfile, Scan.dropWhile_eq_self hlast,
    List.reverse_reverse]

/-- The lines of a list. -/
def md5Lines (t : FileName → Option Md5) (l : List Char) : Prop :=
  ∃ f, ∃ h ∈ t f, l = md5Line h f

/-- What is read of the lines that are only in the second list: the files that the first does not
have as they are. -/
theorem read_new_lines_iff {before after : FileName → Option Md5} {f : FileName} :
    (∃ l, md5Lines after l ∧ ¬ md5Lines before l ∧ (readLine l).2 = f.text) ↔
      after f ≠ none ∧ before f ≠ after f := by
  constructor
  · rintro ⟨l, ⟨g, h, hg, rfl⟩, hbefore, hread⟩
    rw [readLine_md5Line] at hread
    obtain rfl : g = f := FileName.ext hread
    refine ⟨fun hnone => ?_, fun heq => hbefore ⟨g, h, ?_, rfl⟩⟩
    · rw [hnone] at hg
      cases hg
    · rwa [heq]
  · rintro ⟨hafter, hne⟩
    obtain ⟨h, hh⟩ := Option.ne_none_iff_exists'.mp hafter
    refine ⟨md5Line h f, ⟨f, h, hh, rfl⟩, ?_, by rw [readLine_md5Line]⟩
    rintro ⟨g, h', hg, hline⟩
    have hread := (readLine_md5Line h f).symm.trans (hline ▸ readLine_md5Line h' g)
    obtain ⟨hsum, hname⟩ := Prod.mk.inj hread
    obtain rfl : f = g := FileName.ext hname
    obtain rfl : h = h' := Md5.ext hsum
    exact hne (Eq.trans hg hh.symm)

/-! ### The state of a build -/

/-- The regular files of the target. -/
abbrev Tree := FileName → Option Md5

variable {π : Type} [DecidableEq π]

inductive Writer (π : Type)
  /-- The build and install steps of the package. -/
  | own (p : π)
  | other
deriving DecidableEq

structure World (π : Type) where
  stamps : π → Finset Stamp
  tree : Tree
  /-- `.br_filelist_before` in the build directory of the package -/
  before : π → Option Tree
  /-- How many lines `packages-file-list.txt` has for a package and a file -/
  fileList : π → FileName → ℕ
  /-- Who created or changed the file last. -/
  author : FileName → Writer π

/-- What a command that fails leaves. -/
structure Failure where
  /-- Of the build directory, if the command was to remove it: stamps, and the list of files. -/
  stamps : Finset Stamp
  snapshot : Bool
  /-- The lines that the hook of a step has appended. -/
  lines : FileName → Bool

structure Event (π : Type) where
  pkg : π
  cmd : Cmd
  /-- What the command does to the target. -/
  effect : Tree → Tree
  failure : Option Failure

def ownStep : Stamp → Bool
  | .built | .stagingInstalled | .targetInstalled | .imagesInstalled | .hostInstalled => true
  | _ => false

def World.change (s : World π) (w : Writer π) (effect : Tree → Tree) : World π :=
  let tree := effect s.tree
  { s with
    tree := tree
    author := fun f => if tree f = s.tree f then s.author f else w }

/-- `step_pkg_size_start`. If the build fails, its rule starts from here again. -/
def stepPkgSizeStart (p : π) (s : World π) : World π :=
  { s with before := Function.update s.before p (some s.tree) }

/-- `comm -13`; without the first file it prints nothing. -/
def comm13 (before : Option Tree) (after : Tree) (f : FileName) : Bool :=
  match before with
  | none => false
  | some before => after f ≠ none && before f ≠ after f

def Failure.linesOf (failure : Option Failure) (f : FileName) : Bool :=
  match failure with
  | none => true
  | some fl => fl.lines f

/-- The lines that `step_pkg_size_end` appends. -/
def appended (p : π) (failure : Option Failure) (s : World π) (f : FileName) : Bool :=
  comm13 (s.before p) s.tree f && Failure.linesOf failure f

def stepPkgSizeEnd (p : π) (failure : Option Failure) (s : World π) : World π :=
  { s with
    fileList := Function.update s.fileList p fun f =>
      s.fileList p f + if appended p failure s f then 1 else 0 }

/-- The rule of a stamp file up to `step_end`. -/
def commands (s : World π) (e : Event π) (st : Stamp) : World π :=
  let s := if st = .built then stepPkgSizeStart e.pkg s else s
  s.change (if ownStep st then .own e.pkg else .other) e.effect

def rule (s : World π) (e : Event π) (st : Stamp) : World π :=
  let s := commands s e st
  let s := if st = .targetInstalled then stepPkgSizeEnd e.pkg e.failure s else s
  if e.failure.isNone then
    { s with stamps := Function.update s.stamps e.pkg (insert st (s.stamps e.pkg)) }
  else
    s

def exec (s : World π) (e : Event π) : World π :=
  match e.cmd with
  | .stamp st => if st ∈ s.stamps e.pkg then s else rule s e st
  | .rm st => { s with stamps := Function.update s.stamps e.pkg ((s.stamps e.pkg).erase st) }
  | .rmDir =>
    match e.failure with
    | none =>
      { s with
        stamps := Function.update s.stamps e.pkg ∅
        before := Function.update s.before e.pkg none }
    | some fl =>
      { s with
        stamps := Function.update s.stamps e.pkg (s.stamps e.pkg ∩ fl.stamps)
        before := if fl.snapshot then s.before else Function.update s.before e.pkg none }
  | .run _ => s.change .other e.effect

/-- The target before the first package. -/
def World.init (tree : Tree) : World π where
  stamps _ := ∅
  tree := tree
  before _ := none
  fileList _ _ := 0
  author _ := .other

/-! ### The attribution -/

def Event.installsTarget (e : Event π) (s : World π) : Prop :=
  e.cmd = .stamp .targetInstalled ∧ .targetInstalled ∉ s.stamps e.pkg

/-- The lines that an install-target step appends name files that the package's own steps wrote,
and, if it ends, all that it wrote itself. -/
def Right (s : World π) (e : Event π) : Prop :=
  e.installsTarget s →
    (∀ f, s.fileList e.pkg f < (exec s e).fileList e.pkg f →
      (exec s e).author f = .own e.pkg) ∧
    (e.failure = none → ∀ f, (exec s e).tree f ≠ none → (exec s e).tree f ≠ s.tree f →
      s.fileList e.pkg f < (exec s e).fileList e.pkg f)

/-- What a sequence of commands makes of the first target. -/
def after (tree : Tree) (es : List (Event π)) : World π := final exec (World.init tree) es

def Event.startsBuild (e : Event π) (p : π) (s : World π) : Prop :=
  e.pkg = p ∧ e.cmd = .stamp .built ∧ .built ∉ s.stamps p

/-- The build directory is removed, or so much of it. -/
def Event.removesList (e : Event π) (p : π) : Prop :=
  e.pkg = p ∧ e.cmd = .rmDir ∧ ∀ fl ∈ e.failure, fl.snapshot = false

/-- The last build step of the package has started behind the first commands, and its build directory
has not been removed since. -/
inductive BuiltSince (tree : Tree) (p : π) : List (Event π) → List (Event π) → Prop
  | start {es : List (Event π)} {e : Event π} : e.startsBuild p (after tree es) →
      BuiltSince tree p es (es ++ [e])
  | later {start es : List (Event π)} {e : Event π} : BuiltSince tree p start es →
      ¬ e.startsBuild p (after tree es) → ¬ e.removesList p →
      BuiltSince tree p start (es ++ [e])

/-- An installation behind these commands. A file that it leaves alone, and that others were the last
to change, is as it was when the package's build started; and there has been such a build, when no
file was as the installation makes it. -/
structure Undisturbed (tree : Tree) (es : List (Event π)) (e : Event π) : Prop where
  others : ∀ start, BuiltSince tree e.pkg start es → ∀ f, Failure.linesOf e.failure f = true →
    (after tree es).tree f ≠ none → e.effect (after tree es).tree f = (after tree es).tree f →
    (after tree es).author f ≠ .own e.pkg → (after tree start).tree f = (after tree es).tree f
  wrote : e.failure = none → ∀ f, e.effect (after tree es).tree f ≠ none →
    e.effect (after tree es).tree f ≠ (after tree es).tree f →
    ∃ start, BuiltSince tree e.pkg start es ∧
      (after tree start).tree f ≠ e.effect (after tree es).tree f

/-! ### The list of a package -/

theorem after_concat (tree : Tree) (es : List (Event π)) (e : Event π) :
    after tree (es ++ [e]) = exec (after tree es) e := final_append _ _ _

theorem before_commands {s : World π} {e : Event π} {st : Stamp} {p : π} :
    (commands s e st).before p = if e.pkg = p ∧ st = .built then some s.tree else s.before p := by
  unfold commands World.change stepPkgSizeStart
  by_cases hst : st = .built
  · by_cases hp : e.pkg = p
    · subst hp
      simp [hst]
    · simp [hst, hp, Function.update_of_ne (Ne.symm hp)]
  · simp [hst]

theorem before_rule {s : World π} {e : Event π} {st : Stamp} :
    (rule s e st).before = (commands s e st).before := by
  unfold rule
  dsimp only
  split <;> split <;> rfl

theorem before_exec_of_starts {s : World π} {e : Event π} {p : π} (h : e.startsBuild p s) :
    (exec s e).before p = some s.tree := by
  obtain ⟨rfl, hcmd, hbuilt⟩ := h
  unfold exec
  rw [hcmd]
  dsimp only
  rw [if_neg hbuilt, before_rule, before_commands, if_pos ⟨rfl, rfl⟩]

theorem before_exec_of_removes {s : World π} {e : Event π} {p : π} (h : e.removesList p) :
    (exec s e).before p = none := by
  obtain ⟨rfl, hcmd, hlist⟩ := h
  unfold exec
  rw [hcmd]
  dsimp only
  split
  · exact Function.update_self ..
  · rename_i fl hfl
    dsimp only
    rw [hlist fl hfl, if_neg Bool.false_ne_true, Function.update_self]

theorem before_exec_of_not {s : World π} {e : Event π} {p : π} (hstart : ¬ e.startsBuild p s)
    (hremove : ¬ e.removesList p) : (exec s e).before p = s.before p := by
  unfold exec
  split
  · rename_i st hcmd
    split
    · rfl
    · rename_i hst
      rw [before_rule, before_commands, if_neg]
      rintro ⟨rfl, rfl⟩
      exact hstart ⟨rfl, hcmd, hst⟩
  · rfl
  · rename_i hcmd
    split
    · rename_i hfailure
      refine Function.update_of_ne (fun hp => hremove ⟨hp.symm, hcmd, ?_⟩) _ _
      rw [hfailure]
      exact nofun
    · rename_i fl hfailure
      dsimp only
      split
      · rfl
      · rename_i hsnapshot
        refine Function.update_of_ne (fun hp => hremove ⟨hp.symm, hcmd, ?_⟩) _ _
        rw [hfailure]
        rintro _ ⟨⟩
        simpa using hsnapshot
  · rfl

theorem builtSince_concat {tree : Tree} {p : π} {start es : List (Event π)} {e : Event π} :
    BuiltSince tree p start (es ++ [e]) ↔ (start = es ∧ e.startsBuild p (after tree es)) ∨
      BuiltSince tree p start es ∧ ¬ e.startsBuild p (after tree es) ∧ ¬ e.removesList p := by
  constructor
  · generalize hes : es ++ [e] = es'
    rintro (h | ⟨h, hstart, hremove⟩)
    · obtain ⟨rfl, he⟩ := List.append_inj' hes rfl
      obtain rfl := List.head_eq_of_cons_eq he
      exact .inl ⟨rfl, h⟩
    · obtain ⟨rfl, he⟩ := List.append_inj' hes rfl
      obtain rfl := List.head_eq_of_cons_eq he
      exact .inr ⟨h, hstart, hremove⟩
  · rintro (⟨rfl, h⟩ | ⟨h, hstart, hremove⟩)
    · exact .start h
    · exact .later h hstart hremove

/-- The list of a package is that of its last build, as long as it is there. -/
theorem before_after_iff (tree : Tree) (p : π) (b : Tree) (es : List (Event π)) :
    (after tree es).before p = some b ↔
      ∃ start, BuiltSince tree p start es ∧ (after tree start).tree = b := by
  induction es using List.reverseRecOn with
  | nil =>
    refine iff_of_false nofun ?_
    rintro ⟨start, h, -⟩
    generalize hes : ([] : List (Event π)) = es at h
    cases h <;> simp at hes
  | append_singleton es e ih =>
    simp only [after_concat, builtSince_concat]
    by_cases hstart : e.startsBuild p (after tree es)
    · rw [before_exec_of_starts hstart, Option.some.injEq]
      simp [hstart]
    · by_cases hremove : e.removesList p
      · rw [before_exec_of_removes hremove]
        simp [hstart, hremove]
      · rw [before_exec_of_not hstart hremove, ih]
        simp [hstart, hremove]

/-! ### Every installation -/

/-- `comm13` is what is read of the lines. -/
theorem comm13_iff {before after : Tree} {f : FileName} : comm13 (some before) after f = true ↔
    ∃ l, md5Lines after l ∧ ¬ md5Lines before l ∧ (readLine l).2 = f.text := by
  rw [read_new_lines_iff]
  simp [comm13]

omit [DecidableEq π] in
theorem appended_iff {p : π} {failure : Option Failure} {s : World π} {f : FileName} :
    appended p failure s f = true ↔ (∃ b ∈ s.before p, b f ≠ s.tree f) ∧ s.tree f ≠ none ∧
      Failure.linesOf failure f = true := by
  unfold appended comm13
  rcases s.before p with _ | b
  · simp
  · simp [and_comm, and_left_comm]

theorem exec_of_installsTarget {s : World π} {e : Event π} (h : e.installsTarget s) :
    let s' := s.change (.own e.pkg) e.effect
    (exec s e).tree = s'.tree ∧ (exec s e).author = s'.author ∧ ∀ f, (exec s e).fileList e.pkg f =
      s.fileList e.pkg f + if appended e.pkg e.failure s' f then 1 else 0 := by
  obtain ⟨hcmd, hinstalled⟩ := h
  unfold exec
  rw [hcmd]
  dsimp only
  rw [if_neg hinstalled]
  unfold rule
  dsimp only
  rw [if_pos rfl]
  have hlist : ∀ f, (stepPkgSizeEnd e.pkg e.failure (commands s e .targetInstalled)).fileList e.pkg f =
      s.fileList e.pkg f +
        if appended e.pkg e.failure (s.change (.own e.pkg) e.effect) f then 1 else 0 :=
    congrFun (Function.update_self ..)
  split <;> exact ⟨rfl, rfl, hlist⟩

theorem right_iff_undisturbed (tree : Tree) (es : List (Event π)) (e : Event π)
    (hinstalls : e.installsTarget (after tree es)) :
    Right (after tree es) e ↔ Undisturbed tree es e := by
  obtain ⟨htree, hauthor, hlist⟩ := exec_of_installsTarget hinstalls
  have hlines : ∀ f, (after tree es).fileList e.pkg f < (exec (after tree es) e).fileList e.pkg f ↔
      (∃ start, BuiltSince tree e.pkg start es ∧
        (after tree start).tree f ≠ e.effect (after tree es).tree f) ∧
      e.effect (after tree es).tree f ≠ none ∧ Failure.linesOf e.failure f = true := by
    intro f
    have happended : (after tree es).fileList e.pkg f < (exec (after tree es) e).fileList e.pkg f ↔
        appended e.pkg e.failure ((after tree es).change (.own e.pkg) e.effect) f = true := by
      rw [hlist f]
      split <;> simp [*]
    rw [happended, appended_iff]
    refine and_congr_left fun _ => ?_
    constructor
    · rintro ⟨b, hb, hne⟩
      obtain ⟨start, hstart, rfl⟩ := (before_after_iff tree e.pkg b es).mp hb
      exact ⟨start, hstart, hne⟩
    · rintro ⟨start, hstart, hne⟩
      exact ⟨_, (before_after_iff tree e.pkg _ es).mpr ⟨start, hstart, rfl⟩, hne⟩
  unfold Right
  rw [htree, hauthor]
  simp only [hlines, World.change]
  constructor
  · intro h
    obtain ⟨hown, hwrote⟩ := h hinstalls
    refine ⟨fun start hstart f hl hnone heq hne => ?_, fun hfailure f hnone hne => ?_⟩
    · by_contra hcontent
      have hf := hown f ⟨⟨start, hstart, heq ▸ hcontent⟩, heq ▸ hnone, hl⟩
      rw [if_pos heq] at hf
      exact hne hf
    · exact (hwrote hfailure f hnone hne).1
  · intro hund _
    refine ⟨fun f => ?_, fun hfailure f hnone hne => ?_⟩
    · rintro ⟨⟨start, hstart, hcontent⟩, hnone, hl⟩
      split
      · rename_i heq
        rw [heq] at hcontent hnone
        by_contra hne
        exact hcontent (hund.others start hstart f hl hnone heq hne)
      · rfl
    · refine ⟨hund.wrote hfailure f hnone hne, hnone, ?_⟩
      rw [hfailure]
      rfl

/-- In every run, all installations are accounted right exactly if none is disturbed. -/
theorem along_attributed_iff (tree : Tree) (es : List (Event π)) :
    Along exec Right (World.init tree) es ↔ ∀ pre e post, es = pre ++ e :: post →
      e.installsTarget (after tree pre) → Undisturbed tree pre e := by
  rw [along_iff_forall]
  refine forall_congr' fun pre => forall_congr' fun e => forall_congr' fun post =>
    imp_congr_right fun _ => ?_
  constructor
  · exact fun h hinstalls => (right_iff_undisturbed tree pre e hinstalls).mp h
  · exact fun h hinstalls => (right_iff_undisturbed tree pre e hinstalls).mpr (h hinstalls) hinstalls

/-! ### Installations that nothing disturbs -/

/-- The list of the package says what is in the target. -/
def Fresh (p : π) (s : World π) : Prop := s.before p = some s.tree

theorem undisturbed_of_fresh {tree : Tree} {es : List (Event π)} {e : Event π}
    (h : Fresh e.pkg (after tree es)) : Undisturbed tree es e := by
  obtain ⟨start, hstart, htree⟩ := (before_after_iff tree e.pkg _ es).mp h
  refine ⟨fun start' hstart' f _ _ _ _ => ?_, fun _ f _ hne => ⟨start, hstart, ?_⟩⟩
  · have hbefore := (before_after_iff tree e.pkg _ es).mpr ⟨start', hstart', rfl⟩
    rw [Option.some.inj (hbefore.symm.trans h)]
  · rw [htree]
    exact hne.symm

omit [DecidableEq π] in
theorem Fresh.change {p : π} {s : World π} (h : Fresh p s) (w : Writer π) {effect : Tree → Tree}
    (hquiet : ∀ t, effect t = t) : Fresh p (s.change w effect) :=
  h.trans (congrArg some (hquiet s.tree).symm)

theorem Fresh.commands {p : π} {s : World π} {e : Event π} {st : Stamp}
    (h : st = .built ∧ e.pkg = p ∨ Fresh p s) (hquiet : ∀ t, e.effect t = t) :
    Fresh p (commands s e st) := by
  refine Fresh.change ?_ _ hquiet
  by_cases hp : st = .built ∧ e.pkg = p
  · rw [if_pos hp.1, hp.2]
    exact Function.update_self ..
  · have hfresh := h.resolve_left hp
    split
    · rename_i hst
      exact (Function.update_of_ne (fun hpkg => hp ⟨hst, hpkg.symm⟩) _ _).trans hfresh
    · exact hfresh

theorem fresh_rule_iff {p : π} {s : World π} {e : Event π} {st : Stamp} :
    Fresh p (rule s e st) ↔ Fresh p (PackageFiles.commands s e st) := by
  unfold rule
  dsimp only
  split <;> split <;> exact Iff.rfl

theorem fresh_build {s : World π} {e : Event π} (hcmd : e.cmd = .stamp .built)
    (hbuilt : .built ∉ s.stamps e.pkg) (hquiet : ∀ t, e.effect t = t) :
    Fresh e.pkg (exec s e) := by
  unfold exec
  rw [hcmd]
  dsimp only
  rw [if_neg hbuilt, fresh_rule_iff]
  exact Fresh.commands (.inl ⟨rfl, rfl⟩) hquiet

/-- A command that leaves the target alone. -/
theorem Fresh.exec {p : π} {s : World π} (h : Fresh p s) {e : Event π}
    (hquiet : ∀ t, e.effect t = t) (hdir : e.cmd = .rmDir → e.pkg ≠ p) : Fresh p (exec s e) := by
  unfold PackageFiles.exec
  split
  · split
    · exact h
    · exact fresh_rule_iff.mpr (Fresh.commands (.inr h) hquiet)
  · exact h
  · rename_i hcmd
    have hgone : Function.update s.before e.pkg none p = some s.tree :=
      (Function.update_of_ne (hdir hcmd).symm _ _).trans h
    split
    · exact hgone
    · unfold Fresh
      dsimp only
      split
      · exact h
      · exact hgone
  · exact h.change _ hquiet

theorem Fresh.final {p : π} {es : List (Event π)} (hquiet : ∀ c ∈ es, ∀ t, c.effect t = t)
    (hdir : ∀ c ∈ es, c.cmd = .rmDir → c.pkg ≠ p) {s : World π} (h : Fresh p s) :
    Fresh p (final PackageFiles.exec s es) := by
  induction es generalizing s with
  | nil => exact h
  | cons e es ih =>
    obtain ⟨he, hes⟩ := List.forall_mem_cons.mp hquiet
    obtain ⟨hde, hdes⟩ := List.forall_mem_cons.mp hdir
    exact ih hes hdes (h.exec he hde)

/-- Where a package's build and all that is done until it is installed leave the target alone, the
installation is accounted right. -/
theorem undisturbed_after_build {tree : Tree} {pre es : List (Event π)} {b e : Event π}
    (hbuild : b.startsBuild e.pkg (after tree pre)) (hquiet : ∀ c ∈ b :: es, ∀ t, c.effect t = t)
    (hdir : ∀ c ∈ es, c.cmd = .rmDir → c.pkg ≠ e.pkg) :
    Undisturbed tree (pre ++ b :: es) e := by
  obtain ⟨hb, hes⟩ := List.forall_mem_cons.mp hquiet
  obtain ⟨hpkg, hcmd, hbuilt⟩ := hbuild
  refine undisturbed_of_fresh ?_
  rw [after, final_append, final_cons]
  refine Fresh.final hes hdir ?_
  rw [← hpkg] at hbuilt ⊢
  exact fresh_build hcmd hbuilt hb

/-! ### A stale list -/

inductive Sample
  | dropbear
  | zlib
deriving DecidableEq

/-- Settings of a package with its sources at hand, which installs to the target only. -/
def sampleSettings : Stamps.Pkg := ⟨.target, true, false, true, false⟩

/-- The commands of `make` for a package that installs one file. -/
def makeSample (p : Sample) (f : FileName) (h : Md5) : List (Event Sample) :=
  (Stamps.plan sampleSettings .pkg).map fun c =>
    ⟨p, c, if c = .stamp .targetInstalled then (Function.update · f (some h)) else id, none⟩

def libz : FileName where
  text := "./usr/lib/libz.so.1".toList
  plain := List.all_eq_true.mp rfl
  head _ h := Option.some.inj h ▸ rfl
  last _ h := Option.some.inj h ▸ rfl

def sbin : FileName where
  text := "./usr/sbin/dropbear".toList
  plain := List.all_eq_true.mp rfl
  head _ h := Option.some.inj h ▸ rfl
  last _ h := Option.some.inj h ▸ rfl

def emptySum : Md5 where
  text := "d41d8cd98f00b204e9800998ecf8427e".toList
  ne_nil := List.cons_ne_nil _ _
  isAlphanum := List.all_eq_true.mp rfl

/-- `make dropbear`, which fails in its installation. -/
def failedMake : List (Event Sample) :=
  (makeSample .dropbear sbin emptySum).take 5 ++
    [⟨.dropbear, .stamp .targetInstalled, id, some ⟨∅, true, fun _ => false⟩⟩]

/-- What is in the target before. -/
def skeleton : Tree := fun f => if f.text = "./etc/passwd".toList then some emptySum else none

/-- `make dropbear` fails, then `make zlib` and `make dropbear` again. -/
def staleRun : List (Event Sample) :=
  failedMake ++ makeSample .zlib libz emptySum ++ makeSample .dropbear sbin emptySum

theorem not_along_attributed : ¬ ∀ tree (es : List (Event Sample)),
    Along exec Right (World.init tree) es := by
  intro hall
  have hrun := hall skeleton staleRun
  have hsplit : staleRun =
      (failedMake ++ makeSample .zlib libz emptySum ++
        (makeSample .dropbear sbin emptySum).take 5) ++
      (makeSample .dropbear sbin emptySum).drop 5 := rfl
  rw [hsplit, along_append] at hrun
  have hright := (hrun.2.1 ⟨rfl, by decide⟩).1 libz Nat.one_pos
  cases hright

end Dir842.PackageFiles
