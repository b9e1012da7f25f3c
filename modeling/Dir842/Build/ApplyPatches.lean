import Dir842.Lib.Run
import Mathlib.Data.List.Infix
import Mathlib.Data.List.Sort

/-!
# Applying patches (`support/scripts/apply-patches.sh`)

`scan_patchdir` and `apply_patch` over a tree of directories and archives, which the patches
themselves do not change. What `patch` and the decompressors do, the regular expressions of `grep`
and what the shell makes of a text without quotes are inputs.
-/

namespace Dir842.ApplyPatches
open Run

abbrev Text := List Char

/-- What is in a patch directory; a file comes with what `tar` unpacks from it. -/
inductive Node
  | file (text : Text) (unpacked : Option (List (Text × Node)))
  | dir (entries : List (Text × Node))

abbrev Entries := List (Text × Node)

/-- A pattern for names of patches. -/
structure Pattern where
  text : Text
  fits : Text → Bool

/-- `*` -/
def anyName : Pattern := ⟨['*'], fun name => name.head? ≠ some '.'⟩

inductive Uncomp
  | gunzip | bunzip | bunzip2 | unxz | unzip | uncompress | cat
deriving DecidableEq

/-! ### The programs that the script calls -/

/-- The special characters of extended regular expressions, and the end of a line. -/
def special : Text := "\\.[()*+?\x7b^$|\n".toList

/-- Special characters other than the dot do not occur. -/
def Plain (name : Text) : Prop := ∀ c ∈ name, c = '.' ∨ c ∉ special

instance (name : Text) : Decidable (Plain name) := List.decidableBAll _ name

/-- The line ends with `/` and a text that fits the name, in which a dot stands for anything. -/
def Dotted (name line : Text) : Prop :=
  ∃ pre s, line = pre ++ '/' :: s ∧ List.Forall₂ (fun c d => c = '.' ∨ c = d) name s

/-- The line ends with `/` and the name. -/
def Names (name line : Text) : Prop := '/' :: name <:+ line

def isBlank (c : Char) : Bool := c = ' ' ∨ c = '\t' ∨ c = '\n'

def isGlob (c : Char) : Bool := c = '*' ∨ c = '?' ∨ c = '[' ∨ c = '\\'

def isQuiet (c : Char) : Bool := !isBlank c && !isGlob c

/-- The shell makes one word of the text, which is no option either. -/
structure Quiet (text : Text) : Prop where
  chars : text.all isQuiet = true
  ne_nil : text ≠ []
  dash : text.head? ≠ some '-'

structure Tools (B : Type) where
  pwd : Text
  builddir : Text
  /-- Pathname expansion of a word, which is about the files in `pwd`. -/
  expand : Text → List Text
  /-- What `ls -d` prints where one of its arguments begins with a dash. -/
  lsOptions : List Text → Text
  /-- What `cd $path; ls -d $patches` prints where the shell makes of the path other words. -/
  lsAstray : List Text → List Text → Text
  /-- The first fields of the lines of `${path}/series` in that case. -/
  seriesAstray : List Text → Text
  /-- `grep -E` of a pattern in a line; a pattern that is not valid is in no line. -/
  grepE : Text → Text → Bool
  /-- The output of a decompressor for a file, or for what is none, and whether it succeeds. -/
  uncomp : Uncomp → Option Text → Text × Bool
  /-- `patch -g0 -p1 -E -t -N` in the build directory. -/
  patch : B → Text → B × Bool
  /-- What a name with a `..` in it leads to. -/
  outside : Text → Option Node
  quiet_pwd : Quiet pwd
  /-- `${builddir}` goes without quotes too. -/
  quiet_builddir : Quiet builddir
  expand_plain : ∀ word, (∀ c ∈ word, isGlob c = false) → expand word = [word]
  grepE_plain : ∀ name line, Plain name →
    (grepE ('/' :: name ++ ['$']) line = true ↔ Dotted name line)

/-! ### Names -/

def textLe : Text → Text → Bool
  | [], _ => true
  | _ :: _, [] => false
  | c :: s, d :: t => if c = d then textLe s t else c < d

/-- `ls` sorts in the C locale. -/
def sort (names : List Text) : List Text := names.insertionSort (textLe · ·)

def matched (entries : Entries) (p : Pattern) : List Text :=
  (entries.map Prod.fst).filter p.fits

def matchedNames (entries : Entries) (patterns : List Pattern) : List Text :=
  patterns.flatMap (matched entries)

/-- The arguments of `ls -d`; a pattern that no name fits is an argument itself. -/
def lsArgs (entries : Entries) (patterns : List Pattern) : List Text :=
  patterns.flatMap fun p => if matched entries p = [] then [p.text] else matched entries p

def Node.text : Node → Text
  | .file text _ => text
  | .dir _ => []

/-- The first fields of the lines of a series file that are no comments. -/
def seriesNames (text : Text) : List Text :=
  (((text.splitOn '\n').filter fun line => line.head? ≠ some '#').map
    fun line => line.takeWhile (· ≠ ' ')).filter (· ≠ [])

section
variable {B : Type} (t : Tools B)

/-- What a `for` loop makes of unquoted text. -/
def Tools.shellWords (text : Text) : List Text :=
  ((text.splitOnP isBlank).filter (· ≠ [])).flatMap t.expand

/-- `cd $path; ls -d $patches` as a `for` loop reads it. -/
def Tools.lsWords (path : Text) (entries : Entries) (patterns : List Pattern) : List Text :=
  if t.shellWords path ≠ [path] ∨ path.head? = some '-' then
    t.shellWords (t.lsAstray (t.shellWords path) (patterns.map Pattern.text))
  else if (lsArgs entries patterns).any (·.head? = some '-') then
    t.shellWords (t.lsOptions (lsArgs entries patterns))
  else (sort (matchedNames entries patterns)).flatMap t.shellWords

/-- `grep -Ev "^#" ${path}/series | cut -d ' ' -f1` as a `for` loop reads it. -/
def Tools.seriesWords (path text : Text) : List Text :=
  let series := path ++ "/series".toList
  if t.shellWords series ≠ [series] ∨ path.head? = some '-' then
    t.shellWords (t.seriesAstray (t.shellWords series))
  else (seriesNames text).flatMap t.shellWords

/-- The path without a final slash, from the root. -/
def Tools.absolute (path : Text) : Text :=
  let path := if path.getLast? = some '/' then path.dropLast else path
  if path.head? = some '/' then path else t.pwd ++ '/' :: path

def walk : Entries → List Text → Option Node
  | entries, [] => some (.dir entries)
  | entries, c :: cs =>
    if c = [] ∨ c = ['.'] then walk entries cs
    else
      match entries.lookup c, cs with
      | none, _ => none
      | some (.dir es), cs => walk es cs
      | some node, [] => some node
      | some _, _ :: _ => none

/-- `${path}/$name` -/
def Tools.find (path : Text) (entries : Entries) (name : Text) : Option Node :=
  let components := name.splitOn '/'
  if ['.', '.'] ∈ components then t.outside (path ++ '/' :: name) else walk entries components

end

def uncompOf (patch : Text) : Option Uncomp :=
  if ".gz".toList <:+ patch then some .gunzip
  else if ".bz".toList <:+ patch then some .bunzip
  else if ".bz2".toList <:+ patch then some .bunzip2
  else if ".xz".toList <:+ patch then some .unxz
  else if ".zip".toList <:+ patch then some .unzip
  else if ".Z".toList <:+ patch then some .uncompress
  else if ".diff".toList <:+: patch then some .cat
  else if ".patch".toList <:+: patch then some .cat
  else none

/-- `\.tar(\..*)?$|\.tbz2?$|\.tgz$` -/
def isArchive (name : Text) : Bool :=
  ".tar".toList <:+ name ∨ ".tar.".toList <:+: name ∨ ".tbz".toList <:+ name ∨
    ".tbz2".toList <:+ name ∨ ".tgz".toList <:+ name

/-! ### The run -/

/-- What becomes of an entry. -/
inductive Fate
  /-- A directory, or an archive, which is gone into. -/
  | scanned
  /-- An archive that `tar` refuses. -/
  | refused
  | skipped
  | missing
  | duplicate
  /-- Whether the decompressor and `patch` succeed. -/
  | applied (uncomped patched : Bool)
deriving DecidableEq

/-- A round of a loop, with the directories and archives it is in and what `.applied_patches_list` is
before. Nothing in the source reads it. -/
structure Visit where
  place : List Text
  path : Text
  word : Text
  listed : List Text
  fate : Fate
deriving DecidableEq

structure State (B : Type) where
  /-- `.applied_patches_list` -/
  listed : List Text
  build : B
  visits : List Visit

section
variable {B : Type} (t : Tools B)

def State.visit (s : State B) (place : List Text) (path word : Text) (fate : Fate) : State B :=
  { s with visits := s.visits ++ [{ place, path, word, listed := s.listed, fate }] }

/-- A part of a run; an error ends the script. -/
abbrev Action (B : Type) := State B → Except (State B) (State B)

/-- `apply_patch`, for a file of the type that the name or the series file says. -/
def applyPatch (place : List Text) (path patch : Text) (uncomp : Option Uncomp)
    (node : Option Node) : Action B := fun s =>
  let visit := fun fate => s.visit place path patch fate
  match uncomp with
  | none => .ok (visit .skipped)
  | some uncomp =>
    match node with
    | none => .error (visit .missing)
    | some node =>
      if s.listed.any (t.grepE ('/' :: patch ++ ['$'])) then .error (visit .duplicate)
      else
        let text := t.uncomp uncomp (match node with | .file text _ => some text | .dir _ => none)
        let r := t.patch s.build text.1
        let s :=
          { visit (.applied text.2 r.2) with
            listed := s.listed ++ [path ++ '/' :: patch], build := r.1 }
        -- the status of the pipeline is that of `patch`
        if r.2 then .ok s else .error s

/-- One round of a `for` loop; `apply_patch` sets the `path` of its caller. -/
abbrev Round (B : Type) := Text → Text → State B → Except (State B) (Text × State B)

/-- A `for` loop of `scan_patchdir`. -/
def loop (round : Round B) : List Text → Text → Action B
  | [], _, s => .ok s
  | word :: words, path, s => do
    let (path, s) ← round path word s
    loop round words path s

/-- How an entry of a directory is scanned itself. -/
structure Sub (B : Type) where
  node : Node
  scan : Option (List Text → Text → Action B) := none
  unpacked : Option (List Text → Text → Action B) := none

def seriesRound (entries : Entries) (place : List Text) : Round B := fun path word s => do
  let path := t.absolute path
  let s ← applyPatch t place path word (some .cat) (t.find path entries word) s
  .ok (path, s)

def unpackedDir (word : Text) : Text :=
  t.builddir ++ "/.patches-".toList ++ word ++ "-unpacked".toList

def entryRound (subs : List (Text × Sub B)) (place : List Text) : Round B := fun path word s => do
  let sub := subs.lookup word
  match sub.bind Sub.scan with
  | some scan =>
    let s ← scan (place ++ [word]) (path ++ '/' :: word) (s.visit place path word .scanned)
    .ok (path, s)
  | none =>
    if isArchive word then
      match sub.bind Sub.unpacked with
      | none => .error (s.visit place path word .refused)
      | some scan =>
        let s ← scan (place ++ [word]) (unpackedDir t word) (s.visit place path word .scanned)
        .ok (path, s)
    else
      let path := t.absolute path
      let s ← applyPatch t place path word (uncompOf word) (sub.map Sub.node) s
      .ok (path, s)

/-- `scan_patchdir` -/
def scanPatchdir (entries : Entries) (subs : List (Text × Sub B)) (patterns : List Pattern)
    (place : List Text) (path : Text) : Action B :=
  match entries.lookup "series".toList with
  | some series => loop (seriesRound t entries place) (t.seriesWords path series.text) path
  | none => loop (entryRound t subs place) (t.lsWords path entries patterns) path

mutual

def Node.sub : Node → Sub B
  | .file text none => { node := .file text none }
  | .file text (some es) =>
    { node := .file text (some es), unpacked := some (scanPatchdir t es (subs es) [anyName]) }
  | .dir es => { node := .dir es, scan := some (scanPatchdir t es (subs es) [anyName]) }

def subs : Entries → List (Text × Sub B)
  | [] => []
  | (name, node) :: es => (name, node.sub) :: subs es

end

/-- The script up to the end of the scan. -/
def applyPatches (patchdir : Text) (entries : Entries) (patterns : List Pattern)
    (listed : List Text) (build : B) : Except (State B) (State B) :=
  scanPatchdir t entries (subs t entries) patterns [] patchdir { listed, build, visits := [] }

end

/-! ### What a run should do -/

/-- A patch that is due: the directories and archives it is in, from the outermost, and its name. -/
abbrev Due := List Text × Text

/-- What is in an entry that the scan goes into. -/
def inside (entries : Entries) (name : Text) : Option Entries :=
  match entries.lookup name with
  | some (.dir es) => some es
  | some (.file _ (some es)) => if isArchive name then some es else none
  | _ => none

mutual

/-- The patches of a directory in the order of its series file, or else of the sorted names. -/
inductive Planned : Entries → List Pattern → List Text → List Due → Prop
  | series {entries patterns place node} : entries.lookup "series".toList = some node →
      Planned entries patterns place ((seriesNames node.text).map (place, ·))
  | sorted {entries patterns place} {names : List Text} (dues : Text → List Due) :
      entries.lookup "series".toList = none → names.Perm (matchedNames entries patterns) →
      names.Pairwise (textLe · ·) →
      (∀ name ∈ names, PlannedEntry entries place name (dues name)) →
      Planned entries patterns place (names.flatMap dues)

inductive PlannedEntry : Entries → List Text → Text → List Due → Prop
  | inside {entries place name es dues} : inside entries name = some es →
      Planned es [anyName] (place ++ [name]) dues → PlannedEntry entries place name dues
  | patch {entries place name} : inside entries name = none → isArchive name = false →
      uncompOf name ≠ none → PlannedEntry entries place name [(place, name)]
  | other {entries place name} : inside entries name = none →
      isArchive name = true ∨ uncompOf name = none → PlannedEntry entries place name []

end

/-- The file of the patch is there and about to be applied. -/
def Fate.Ready : Fate → Prop
  | .duplicate | .applied _ _ => True
  | _ => False

/-- The script goes on. -/
def Fate.Passes : Fate → Prop
  | .scanned | .skipped | .applied _ true => True
  | _ => False

/-- The patch that is taken up. -/
def Visit.due (v : Visit) : Option Due :=
  match v.fate with
  | .missing | .duplicate | .applied _ _ => some (v.place, v.word)
  | _ => none

def taken (visits : List Visit) : List Due := visits.filterMap Visit.due

def Visit.attempt (v : Visit) : Option Text :=
  match v.fate with
  | .applied _ _ => some (v.path ++ '/' :: v.word)
  | _ => none

def attempts (visits : List Visit) : List Text := visits.filterMap Visit.attempt

/-- The state in which a run ends, and whether it has been stopped with an error. -/
def outcome {B : Type} : Except (State B) (State B) → State B × Bool
  | .ok s => (s, false)
  | .error s => (s, true)

structure Conforms {B : Type} (entries : Entries) (patterns : List Pattern) (listed : List Text)
    (r : Except (State B) (State B)) : Prop where
  /-- The patches are taken up in their order, all of them unless the script is stopped. -/
  order : ∃ dues, Planned entries patterns [] dues ∧ taken (outcome r).1.visits <+: dues ∧
    ((outcome r).2 = false → taken (outcome r).1.visits = dues)
  once : (attempts (outcome r).1.visits).Nodup
  duplicate : ∀ v ∈ (outcome r).1.visits, v.fate.Ready →
    (v.fate = .duplicate ↔ ∃ line ∈ v.listed, Names v.word line)
  /-- Where the decompressor or `patch` fails, this is the end. -/
  stop : ∀ v ∈ (outcome r).1.visits, ∀ uncomped patched, v.fate = .applied uncomped patched →
    uncomped = false ∨ patched = false →
      (outcome r).2 = true ∧ (outcome r).1.visits.getLast? = some v
  /-- At every moment the list has what it had before the run and the patches attempted since. -/
  list : (outcome r).1.listed = listed ++ attempts (outcome r).1.visits ∧
    ∀ pre v post, (outcome r).1.visits = pre ++ v :: post → v.listed = listed ++ attempts pre

/-- The names in a directory and below it are what the shell takes them for: those of the series file,
or else the arguments of `ls`, with nothing to expand in what is gone into. -/
inductive Tidy {B : Type} (t : Tools B) : Entries → List Pattern → Prop
  | series {entries patterns node} : entries.lookup "series".toList = some node →
      (∀ name ∈ seriesNames node.text, t.shellWords name = [name]) → Tidy t entries patterns
  | sorted {entries patterns} : entries.lookup "series".toList = none →
      (∀ arg ∈ lsArgs entries patterns, arg.head? ≠ some '-') →
      (∀ name ∈ matchedNames entries patterns, t.shellWords name = [name]) →
      (∀ name ∈ matchedNames entries patterns, ∀ es, inside entries name = some es → Quiet name) →
      (∀ name ∈ matchedNames entries patterns, ∀ es, inside entries name = some es →
        Tidy t es [anyName]) → Tidy t entries patterns

/-- No text is taken for the name because of its special characters. -/
def Told {B : Type} (t : Tools B) (listed : List Text) (name : Text) : Prop :=
  if Plain name then
    (∃ line ∈ listed, Dotted name line) → ∃ line ∈ listed, Names name line
  else
    ∀ line ∈ listed, t.grepE ('/' :: name ++ ['$']) line = false ∧ ¬ Names name line

structure Sound {B : Type} (t : Tools B) (v : Visit) : Prop where
  told : v.fate.Ready → Told t v.listed v.word
  /-- `patch` does not take what a decompressor that fails has put out. -/
  uncomped : v.fate ≠ .applied false true

/-! ### The search for duplicates -/

section
variable {B : Type} {t : Tools B} {name line : Text} {listed : List Text}

theorem dotted_of_names (h : Names name line) : Dotted name line := by
  obtain ⟨pre, rfl⟩ := h
  exact ⟨pre, name, rfl, List.forall₂_same.mpr fun _ _ => .inr rfl⟩

theorem Told.iff (h : Told t listed name) :
    (∃ line ∈ listed, t.grepE ('/' :: name ++ ['$']) line = true) ↔
      ∃ line ∈ listed, Names name line := by
  unfold Told at h
  split at h
  · rename_i hplain
    simp only [t.grepE_plain name _ hplain]
    refine ⟨h, ?_⟩
    rintro ⟨line, hline, hn⟩
    exact ⟨line, hline, dotted_of_names hn⟩
  · refine iff_of_false ?_ ?_
    · rintro ⟨line, hline, hgrep⟩
      exact absurd ((h line hline).1.symm.trans hgrep) Bool.false_ne_true
    · rintro ⟨line, hline, hn⟩
      exact (h line hline).2 hn

/-- For a name that is plain there is no other way. -/
theorem told_iff (hplain : Plain name) : Told t listed name ↔
    ((∃ line ∈ listed, t.grepE ('/' :: name ++ ['$']) line = true) ↔
      ∃ line ∈ listed, Names name line) := by
  refine ⟨Told.iff, fun h => ?_⟩
  unfold Told
  rw [if_pos hplain]
  simp only [t.grepE_plain name _ hplain] at h
  exact h.mp

end

/-! ### What the shell leaves as it is -/

section
variable {B : Type} {t : Tools B} {path name : Text}

theorem splitOnP_of_forall {text : Text} (h : ∀ c ∈ text, isBlank c = false) :
    text.splitOnP isBlank = [text] := by
  induction text with
  | nil => rfl
  | cons c text ih =>
    obtain ⟨hc, htext⟩ := List.forall_mem_cons.mp h
    rw [List.splitOnP_cons_eq_if_modifyHead, hc, if_neg Bool.false_ne_true, ih htext]
    rfl

theorem Quiet.of_mem (h : Quiet name) : ∀ c ∈ name, isBlank c = false ∧ isGlob c = false := by
  intro c hc
  have hquiet := List.all_eq_true.mp h.chars c hc
  simpa only [isQuiet, Bool.and_eq_true, Bool.not_eq_true'] using hquiet

theorem Quiet.shellWords (h : Quiet name) : t.shellWords name = [name] := by
  unfold Tools.shellWords
  rw [splitOnP_of_forall fun c hc => (h.of_mem c hc).1,
    List.filter_cons_of_pos (by simpa using h.ne_nil), List.filter_nil, List.flatMap_singleton]
  exact t.expand_plain name fun c hc => (h.of_mem c hc).2

theorem Quiet.append {path name : Text} (hpath : Quiet path) (hname : name.all isQuiet = true) :
    Quiet (path ++ name) := by
  refine ⟨?_, ?_, ?_⟩
  · rw [List.all_append, hpath.chars, hname, Bool.and_true]
  · exact fun h => hpath.ne_nil (List.append_eq_nil_iff.mp h).1
  · rw [List.head?_append_of_ne_nil _ hpath.ne_nil]
    exact hpath.dash

theorem Quiet.sub (hpath : Quiet path) (hname : Quiet name) : Quiet (path ++ '/' :: name) :=
  hpath.append (by rw [List.all_cons, hname.chars, Bool.and_true]; rfl)

theorem Quiet.unpackedDir (hname : Quiet name) : Quiet (unpackedDir t name) := by
  unfold ApplyPatches.unpackedDir
  refine ((t.quiet_builddir.append ?_).append hname.chars).append ?_
  · decide
  · decide

theorem Quiet.absolute (hpath : Quiet path) : Quiet (t.absolute path) := by
  have hall : ∀ q : Text, q ⊆ path → q.all isQuiet = true := fun q hq =>
    List.all_eq_true.mpr fun c hc => List.all_eq_true.mp hpath.chars c (hq hc)
  have habs : ∀ q : Text, q ⊆ path →
      Quiet (if q.head? = some '/' then q else t.pwd ++ '/' :: q) := by
    intro q hq
    split
    · rename_i hhead
      refine ⟨hall q hq, ?_, ?_⟩
      · rintro rfl
        cases hhead
      · rw [hhead]
        decide
    · exact t.quiet_pwd.append (by rw [List.all_cons, hall q hq, Bool.and_true]; rfl)
  unfold Tools.absolute
  dsimp only
  split
  · exact habs _ (List.dropLast_subset path)
  · exact habs _ fun _ h => h

theorem flatMap_shellWords {names : List Text} (h : ∀ n ∈ names, t.shellWords n = [n]) :
    names.flatMap t.shellWords = names := by
  rw [List.flatMap_congr h, List.flatMap_singleton']

theorem seriesWords_eq (hpath : Quiet path) {text : Text}
    (h : ∀ n ∈ seriesNames text, t.shellWords n = [n]) :
    t.seriesWords path text = seriesNames text := by
  have hseries : Quiet (path ++ "/series".toList) := hpath.append (by decide)
  unfold Tools.seriesWords
  dsimp only
  rw [if_neg (not_or.mpr ⟨not_not_intro hseries.shellWords, hpath.dash⟩), flatMap_shellWords h]

theorem lsWords_eq (hpath : Quiet path) {entries : Entries} {patterns : List Pattern}
    (hargs : ∀ arg ∈ lsArgs entries patterns, arg.head? ≠ some '-')
    (h : ∀ n ∈ matchedNames entries patterns, t.shellWords n = [n]) :
    t.lsWords path entries patterns = sort (matchedNames entries patterns) := by
  unfold Tools.lsWords
  rw [if_neg (not_or.mpr ⟨not_not_intro hpath.shellWords, hpath.dash⟩), if_neg, flatMap_shellWords]
  · exact fun n hn => h n ((List.perm_insertionSort _ _).mem_iff.mp hn)
  · rw [List.any_eq_true]
    rintro ⟨arg, harg, hdash⟩
    exact hargs arg harg (of_decide_eq_true hdash)

end

/-! ### The order of names -/

theorem textLe_total (a b : Text) : textLe a b = true ∨ textLe b a = true := by
  induction a generalizing b with
  | nil => exact .inl rfl
  | cons c a ih =>
    cases b with
    | nil => exact .inr rfl
    | cons d b =>
      simp only [textLe]
      by_cases hcd : c = d
      · simpa [hcd] using ih b
      · rw [if_neg hcd, if_neg (Ne.symm hcd), decide_eq_true_iff, decide_eq_true_iff]
        rcases Nat.lt_or_gt_of_ne fun h => hcd (Char.toNat_inj.mp h) with h | h
        · exact .inl h
        · exact .inr h

theorem textLe_trans {a b c : Text} (hab : textLe a b = true) (hbc : textLe b c = true) :
    textLe a c = true := by
  induction a generalizing b c with
  | nil => rfl
  | cons x a ih =>
    cases b with
    | nil => cases hab
    | cons y b =>
      cases c with
      | nil => cases hbc
      | cons z c =>
        simp only [textLe] at hab hbc ⊢
        by_cases hxy : x = y
        · subst hxy
          rw [if_pos rfl] at hab
          by_cases hxz : x = z
          · rw [if_pos hxz] at hbc ⊢
            exact ih hab hbc
          · rw [if_neg hxz] at hbc ⊢
            exact hbc
        · rw [if_neg hxy, decide_eq_true_iff] at hab
          by_cases hyz : y = z
          · subst hyz
            rw [if_neg hxy, decide_eq_true_iff]
            exact hab
          · rw [if_neg hyz, decide_eq_true_iff] at hbc
            have hlt : x < z := Nat.lt_trans hab hbc
            rw [if_neg fun h => absurd (h ▸ hlt) (Nat.lt_irrefl _), decide_eq_true_iff]
            exact hlt

theorem pairwise_sort (names : List Text) : (sort names).Pairwise (textLe · ·) :=
  have : Std.Total fun a b : Text => textLe a b = true := ⟨textLe_total⟩
  have : IsTrans Text fun a b => textLe a b = true := ⟨fun _ _ _ => textLe_trans⟩
  List.pairwise_insertionSort _ names

/-! ### Every part of a run -/

section
variable {B : Type} {t : Tools B} {listed : List Text}

/-- What the visits say is what happened. -/
structure Kept (t : Tools B) (listed : List Text) (s : State B) : Prop where
  whole : s.listed = listed ++ attempts s.visits
  before : ∀ pre v post, s.visits = pre ++ v :: post → v.listed = listed ++ attempts pre
  found : ∀ v ∈ s.visits, v.fate.Ready →
    (v.fate = .duplicate ↔ ∃ line ∈ v.listed, t.grepE ('/' :: v.word ++ ['$']) line = true)

structure Going (t : Tools B) (listed : List Text) (s : State B) : Prop extends
    Kept t listed s where
  passes : ∀ v ∈ s.visits, v.fate.Passes

structure Stopped (t : Tools B) (listed : List Text) (s : State B) : Prop extends
    Kept t listed s where
  last : ∃ pre v, s.visits = pre ++ [v] ∧ (∀ u ∈ pre, u.fate.Passes) ∧ ¬ v.fate.Passes

/-- A part of a run after which all is well. -/
def Safe (t : Tools B) (listed : List Text) (run : Action B) : Prop :=
  ∀ s, Going t listed s → Ends (Going t listed) (Stopped t listed) (run s)

theorem attempts_append (us vs : List Visit) : attempts (us ++ vs) = attempts us ++ attempts vs :=
  List.filterMap_append

theorem attempts_singleton (v : Visit) : attempts [v] = v.attempt.toList := by
  cases ha : v.attempt with
  | none => exact List.filterMap_cons_none ha
  | some line => exact List.filterMap_cons_some ha

/-- One more visit. -/
theorem Kept.snoc {s s' : State B} {v : Visit} (h : Kept t listed s)
    (hvisits : s'.visits = s.visits ++ [v]) (hlisted : s'.listed = s.listed ++ v.attempt.toList)
    (hv : v.listed = s.listed)
    (hfound : v.fate.Ready →
      (v.fate = .duplicate ↔ ∃ line ∈ v.listed, t.grepE ('/' :: v.word ++ ['$']) line = true)) :
    Kept t listed s' := by
  refine ⟨?_, ?_, ?_⟩
  · rw [hlisted, hvisits, attempts_append, attempts_singleton, h.whole, List.append_assoc]
  · intro pre u post hu
    rw [hvisits] at hu
    rcases eq_or_exists_of_concat hu with ⟨rfl, rfl⟩ | ⟨post, hvisits⟩
    · rw [hv, h.whole]
    · exact h.before pre u post hvisits
  · intro u hu
    rw [hvisits, List.mem_append, List.mem_singleton] at hu
    rcases hu with hu | rfl
    · exact h.found u hu
    · exact hfound

theorem Going.snoc {s s' : State B} {v : Visit} (h : Going t listed s)
    (hvisits : s'.visits = s.visits ++ [v]) (hlisted : s'.listed = s.listed ++ v.attempt.toList)
    (hv : v.listed = s.listed)
    (hfound : v.fate.Ready →
      (v.fate = .duplicate ↔ ∃ line ∈ v.listed, t.grepE ('/' :: v.word ++ ['$']) line = true))
    (hpass : v.fate.Passes) : Going t listed s' := by
  refine ⟨h.toKept.snoc hvisits hlisted hv hfound, fun u hu => ?_⟩
  rw [hvisits, List.mem_append, List.mem_singleton] at hu
  rcases hu with hu | rfl
  · exact h.passes u hu
  · exact hpass

theorem Going.stop {s s' : State B} {v : Visit} (h : Going t listed s)
    (hvisits : s'.visits = s.visits ++ [v]) (hlisted : s'.listed = s.listed ++ v.attempt.toList)
    (hv : v.listed = s.listed)
    (hfound : v.fate.Ready →
      (v.fate = .duplicate ↔ ∃ line ∈ v.listed, t.grepE ('/' :: v.word ++ ['$']) line = true))
    (hpass : ¬ v.fate.Passes) : Stopped t listed s' :=
  ⟨h.toKept.snoc hvisits hlisted hv hfound, s.visits, v, hvisits, h.passes, hpass⟩

/-- A visit that attempts nothing. -/
theorem attempt_of_not_ready {v : Visit} (h : ¬ v.fate.Ready) : v.attempt = none := by
  unfold Visit.attempt
  split
  · rename_i hfate
    exact absurd (hfate ▸ trivial) h
  · rfl

theorem Going.visit {s : State B} (h : Going t listed s) (place : List Text) (path word : Text)
    {fate : Fate} (hready : ¬ fate.Ready) (hpass : fate.Passes) :
    Going t listed (s.visit place path word fate) := by
  refine h.snoc rfl ?_ rfl (fun hr => absurd hr hready) hpass
  rw [attempt_of_not_ready hready, Option.toList_none, List.append_nil]
  rfl

theorem Going.stopVisit {s : State B} (h : Going t listed s) (place : List Text)
    (path word : Text) {fate : Fate} (hready : ¬ fate.Ready) (hpass : ¬ fate.Passes) :
    Stopped t listed (s.visit place path word fate) := by
  refine h.stop rfl ?_ rfl (fun hr => absurd hr hready) hpass
  rw [attempt_of_not_ready hready, Option.toList_none, List.append_nil]
  rfl

theorem safe_applyPatch (place : List Text) (path patch : Text) (uncomp : Option Uncomp)
    (node : Option Node) : Safe t listed (applyPatch t place path patch uncomp node) := by
  intro s h
  unfold applyPatch
  dsimp only
  rcases uncomp with _ | uncomp
  · exact h.visit _ _ _ id trivial
  rcases node with _ | node
  · exact h.stopVisit _ _ _ id id
  dsimp only
  have hany : (s.listed.any (t.grepE ('/' :: patch ++ ['$'])) = true) ↔
      ∃ line ∈ s.listed, t.grepE ('/' :: patch ++ ['$']) line = true := List.any_eq_true
  split
  · rename_i hdup
    refine h.stop rfl (List.append_nil _).symm rfl (fun _ => ?_) id
    exact iff_of_true rfl (hany.mp hdup)
  · rename_i hdup
    have hfound : ∀ u p, Fate.Ready (.applied u p) → (Fate.applied u p = .duplicate ↔
        ∃ line ∈ s.listed, t.grepE ('/' :: patch ++ ['$']) line = true) := fun u p _ =>
      iff_of_false nofun fun hl => hdup (hany.mpr hl)
    cases hp : (t.patch s.build _).2 with
    | true =>
      rw [if_pos rfl, ends_ok]
      exact h.snoc rfl rfl rfl (hfound _ _) trivial
    | false =>
      rw [if_neg Bool.false_ne_true, ends_error]
      exact h.stop rfl rfl rfl (hfound _ _) id

/-- A loop is safe where its rounds are. -/
theorem safe_loop {round : Round B} (hround : ∀ path word s, Going t listed s →
      Ends (fun r => Going t listed r.2) (Stopped t listed) (round path word s))
    (words : List Text) (path : Text) : Safe t listed (loop round words path) := by
  induction words generalizing path with
  | nil =>
    intro s h
    exact h
  | cons word words ih =>
    intro s h
    exact (hround path word s h).bind fun r hr => ih r.1 r.2 hr

theorem ends_withPath {r : Except (State B) (State B)} (path : Text)
    (h : Ends (Going t listed) (Stopped t listed) r) :
    Ends (fun r => Going t listed r.2) (Stopped t listed) (do let s ← r; .ok (path, s)) :=
  h.bind fun _ hs => hs

theorem safe_seriesRound (entries : Entries) (place : List Text) (path word : Text)
    (s : State B) (h : Going t listed s) :
    Ends (fun r => Going t listed r.2) (Stopped t listed)
      (seriesRound t entries place path word s) :=
  ends_withPath _ (safe_applyPatch _ _ _ _ _ s h)

/-- What is in a directory or an archive is scanned safely. -/
structure Sub.Safe (t : Tools B) (listed : List Text) (sub : Sub B) : Prop where
  scan : ∀ f, sub.scan = some f → ∀ place path, ApplyPatches.Safe t listed (f place path)
  unpacked : ∀ f, sub.unpacked = some f → ∀ place path, ApplyPatches.Safe t listed (f place path)

theorem mem_of_lookup {α : Type*} {es : List (Text × α)} {name : Text} {a : α}
    (h : es.lookup name = some a) : ∃ n, (n, a) ∈ es := by
  induction es with
  | nil => cases h
  | cons e es ih =>
    obtain ⟨n, b⟩ := e
    rw [List.lookup_cons] at h
    split at h
    · cases h
      exact ⟨n, List.mem_cons_self ..⟩
    · obtain ⟨m, hm⟩ := ih h
      exact ⟨m, List.mem_cons_of_mem _ hm⟩

theorem safe_entryRound {subs : List (Text × Sub B)} (hsubs : ∀ e ∈ subs, e.2.Safe t listed)
    (place : List Text) (path word : Text) (s : State B) (h : Going t listed s) :
    Ends (fun r => Going t listed r.2) (Stopped t listed)
      (entryRound t subs place path word s) := by
  have hsub : ∀ sub, subs.lookup word = some sub → sub.Safe t listed := by
    intro sub hl
    obtain ⟨n, hn⟩ := mem_of_lookup hl
    exact hsubs _ hn
  unfold entryRound
  dsimp only
  cases hscan : (subs.lookup word).bind Sub.scan with
  | some scan =>
    obtain ⟨sub, hl, hs⟩ := Option.bind_eq_some_iff.mp hscan
    exact ends_withPath _ ((hsub sub hl).scan scan hs _ _ _ (h.visit _ _ _ id trivial))
  | none =>
    dsimp only
    split
    · cases hun : (subs.lookup word).bind Sub.unpacked with
      | none => exact h.stopVisit _ _ _ id id
      | some scan =>
        obtain ⟨sub, hl, hs⟩ := Option.bind_eq_some_iff.mp hun
        exact ends_withPath _ ((hsub sub hl).unpacked scan hs _ _ _ (h.visit _ _ _ id trivial))
    · exact ends_withPath _ (safe_applyPatch _ _ _ _ _ s h)

theorem safe_scanPatchdir {subs : List (Text × Sub B)} (hsubs : ∀ e ∈ subs, e.2.Safe t listed)
    (entries : Entries) (patterns : List Pattern) (place : List Text) (path : Text) :
    Safe t listed (scanPatchdir t entries subs patterns place path) := by
  unfold scanPatchdir
  split
  · exact safe_loop (safe_seriesRound entries place) _ _
  · exact safe_loop (safe_entryRound hsubs place) _ _

mutual

theorem Node.safe_sub : ∀ node : Node, (node.sub t).Safe t listed
  | .file _ none => ⟨nofun, nofun⟩
  | .file _ (some es) => by
    refine ⟨nofun, ?_⟩
    rintro _ ⟨⟩ place path
    exact safe_scanPatchdir (safe_subs es) es _ place path
  | .dir es => by
    refine ⟨?_, nofun⟩
    rintro _ ⟨⟩ place path
    exact safe_scanPatchdir (safe_subs es) es _ place path

theorem safe_subs : ∀ es : Entries, ∀ e ∈ subs t es, e.2.Safe t listed
  | [] => nofun
  | (_, node) :: es => by
    rw [subs]
    exact List.forall_mem_cons.mpr ⟨node.safe_sub, safe_subs es⟩

end

theorem going_nil (build : B) : Going t listed { listed, build, visits := [] } := by
  refine ⟨⟨(List.append_nil _).symm, ?_, nofun⟩, nofun⟩
  intro pre v post h
  exact absurd h (by simp)

theorem kept_of_ends {r : Except (State B) (State B)}
    (h : Ends (Going t listed) (Stopped t listed) r) : Kept t listed (outcome r).1 := by
  cases r with
  | ok s => exact Going.toKept h
  | error s => exact Stopped.toKept h

/-- Only the last visit of a run that has been stopped does not pass. -/
theorem last_of_ends {r : Except (State B) (State B)}
    (h : Ends (Going t listed) (Stopped t listed) r) {v : Visit}
    (hv : v ∈ (outcome r).1.visits) (hpass : ¬ v.fate.Passes) :
    (outcome r).2 = true ∧ (outcome r).1.visits.getLast? = some v := by
  cases r with
  | ok s => exact absurd (Going.passes h v hv) hpass
  | error s =>
    obtain ⟨pre, w, hw, hpre, -⟩ := Stopped.last h
    have hs : (outcome (.error s)).1.visits = pre ++ [w] := hw
    rw [hs, List.mem_append, List.mem_singleton] at hv
    rcases hv with hv | rfl
    · exact absurd (hpre v hv) hpass
    · rw [hs, List.getLast?_concat]
      exact ⟨rfl, rfl⟩

theorem names_attempt {v : Visit} {line : Text} (h : v.attempt = some line) :
    v.fate.Ready ∧ v.fate ≠ .duplicate ∧ Names v.word line := by
  unfold Visit.attempt at h
  split at h
  · rename_i u p hfate
    injection h with h
    rw [hfate]
    exact ⟨trivial, nofun, v.path, h⟩
  · cases h

/-- What the list of patches has is not attempted again. -/
theorem attempts_nodup {s : State B} (h : Kept t listed s) (hsound : ∀ v ∈ s.visits, Sound t v) :
    ∀ pre post, s.visits = pre ++ post → (attempts pre).Nodup := by
  intro pre
  induction pre using List.reverseRecOn with
  | nil =>
    intro _ _
    exact List.nodup_nil
  | append_singleton pre v ih =>
    intro post hs
    rw [List.append_assoc] at hs
    have hnodup := ih _ hs
    have hv : v ∈ s.visits := by
      rw [hs]
      exact List.mem_append_right _ (List.mem_cons_self ..)
    rw [attempts_append, attempts_singleton]
    cases ha : v.attempt with
    | none =>
      rw [Option.toList_none, List.append_nil]
      exact hnodup
    | some line =>
      rw [Option.toList_some, List.nodup_append]
      refine ⟨hnodup, List.nodup_singleton _, fun earlier hmem now hnow he => ?_⟩
      rw [List.mem_singleton] at hnow
      rw [he, hnow] at hmem
      obtain ⟨hready, hdup, hnames⟩ := names_attempt ha
      have hlisted : line ∈ v.listed := by
        rw [h.before pre v post hs]
        exact List.mem_append_right _ hmem
      refine hdup ((h.found v hv hready).mpr ?_)
      exact ((hsound v hv).told hready).iff.mpr ⟨line, hlisted, hnames⟩

/-! ### The order of a run -/

theorem taken_append (us vs : List Visit) : taken (us ++ vs) = taken us ++ taken vs :=
  List.filterMap_append

theorem taken_singleton (v : Visit) : taken [v] = v.due.toList := by
  cases ha : v.due with
  | none => exact List.filterMap_cons_none ha
  | some due => exact List.filterMap_cons_some ha

theorem taken_visit (s : State B) (place : List Text) (path word : Text) (fate : Fate) :
    taken (s.visit place path word fate).visits = taken s.visits ++
      (Visit.due { place, path, word, listed := s.listed, fate }).toList := by
  rw [State.visit, taken_append, taken_singleton]

/-- The run has taken up the first of these patches. -/
def Begins (dues : List Due) (s s' : State B) : Prop :=
  ∃ ds, ds <+: dues ∧ taken s'.visits = taken s.visits ++ ds

/-- A part of a run that takes up these patches, or the first of them where it is stopped. -/
def Ordered (dues : List Due) (run : Action B) : Prop :=
  ∀ s, Ends (fun s' => taken s'.visits = taken s.visits ++ dues) (Begins dues s) (run s)

/-- A round that takes up these patches, in which the path stays one word. -/
def OrderedRound (round : Round B) (word : Text) (dues : List Due) : Prop :=
  ∀ path, Quiet path → ∀ s,
    Ends (fun r => Quiet r.1 ∧ taken r.2.visits = taken s.visits ++ dues) (Begins dues s)
      (round path word s)

theorem Ordered.withPath {run : Action B} {dues : List Due} (h : Ordered dues run) {path : Text}
    (hpath : Quiet path) (s : State B) :
    Ends (fun r => Quiet r.1 ∧ taken r.2.visits = taken s.visits ++ dues) (Begins dues s)
      (do let s ← run s; .ok (path, s)) :=
  (h s).bind fun _ hs => ⟨hpath, hs⟩

theorem ordered_applyPatch (place : List Text) (path patch : Text) (uncomp : Option Uncomp)
    (node : Option Node) : Ordered (uncomp.map fun _ => (place, patch)).toList
      (applyPatch t place path patch uncomp node) := by
  intro s
  unfold applyPatch
  dsimp only
  rcases uncomp with _ | uncomp
  · exact taken_visit s place path patch .skipped
  rcases node with _ | node
  · exact ⟨_, List.prefix_rfl, taken_visit s place path patch .missing⟩
  dsimp only
  split
  · exact ⟨_, List.prefix_rfl, taken_visit s place path patch .duplicate⟩
  · cases (t.patch s.build _).2 with
    | true =>
      rw [if_pos rfl, ends_ok]
      exact taken_visit s place path patch (.applied _ _)
    | false =>
      rw [if_neg Bool.false_ne_true, ends_error]
      exact ⟨_, List.prefix_rfl, taken_visit s place path patch (.applied _ _)⟩

theorem ordered_loop {round : Round B} {words : List Text} (dues : Text → List Due)
    (hround : ∀ word ∈ words, OrderedRound round word (dues word)) {path : Text}
    (hpath : Quiet path) : Ordered (words.flatMap dues) (loop round words path) := by
  induction words generalizing path with
  | nil => exact fun s => (List.append_nil _).symm
  | cons word words ih =>
    intro s
    obtain ⟨hword, hwords⟩ := List.forall_mem_cons.mp hround
    refine ((hword path hpath s).imp (fun _ h => h) fun s' h => ?_).bind fun r hr => ?_
    · obtain ⟨ds, hds, htaken⟩ := h
      exact ⟨ds, hds.trans (List.prefix_append _ _), htaken⟩
    · refine (ih hwords hr.1 r.2).imp (fun s' h => ?_) fun s' h => ?_
      · rw [h, hr.2, List.append_assoc, List.flatMap_cons]
      · obtain ⟨ds, hds, htaken⟩ := h
        refine ⟨dues word ++ ds, (List.prefix_append_right_inj _).mpr hds, ?_⟩
        rw [htaken, hr.2, List.append_assoc]

theorem orderedRound_series (entries : Entries) (place : List Text) (word : Text) :
    OrderedRound (seriesRound t entries place) word [(place, word)] := fun _ hpath s =>
  (ordered_applyPatch place _ word (some .cat) _).withPath hpath.absolute s

theorem lookup_subs (entries : Entries) (name : Text) :
    (subs t entries).lookup name = (entries.lookup name).map (Node.sub t) := by
  induction entries with
  | nil => rfl
  | cons e entries ih =>
    obtain ⟨n, node⟩ := e
    rw [subs, List.lookup_cons, List.lookup_cons]
    cases name == n with
    | true => rfl
    | false => exact ih

/-- What is not gone into is taken up, if it is a patch. -/
theorem planned_of_inside_eq_none {entries : Entries} {place : List Text} {name : Text}
    (h : inside entries name = none) : ∃ dues, PlannedEntry entries place name dues ∧
      OrderedRound (entryRound t (subs t entries) place) name dues := by
  have hscan : ((subs t entries).lookup name).bind Sub.scan = none ∧
      (isArchive name = true → ((subs t entries).lookup name).bind Sub.unpacked = none) := by
    rw [lookup_subs]
    unfold inside at h
    cases hl : entries.lookup name with
    | none => exact ⟨rfl, fun _ => rfl⟩
    | some node =>
      rw [hl] at h
      rcases node with ⟨text, _ | es⟩ | es
      · exact ⟨rfl, fun _ => rfl⟩
      · refine ⟨rfl, fun harchive => ?_⟩
        dsimp only at h
        rw [if_pos harchive] at h
        cases h
      · cases h
  cases harchive : isArchive name with
  | true =>
    refine ⟨[], .other h (.inl harchive), fun path _ s => ?_⟩
    unfold entryRound
    simp only [hscan.1, hscan.2 harchive, harchive, if_true]
    exact ⟨[], List.prefix_rfl, taken_visit s place path name .refused⟩
  | false =>
    refine ⟨((uncompOf name).map fun _ => (place, name)).toList, ?_, fun path hpath s => ?_⟩
    · cases hu : uncompOf name with
      | none => exact .other h (.inr hu)
      | some u => exact .patch h harchive (by rw [hu]; exact Option.some_ne_none u)
    · unfold entryRound
      simp only [hscan.1, harchive, Bool.false_eq_true, if_false]
      exact (ordered_applyPatch place _ name _ _).withPath hpath.absolute s

/-- What is gone into is taken up in its place. -/
theorem orderedRound_of_inside {entries es : Entries} {place : List Text} {name : Text}
    (h : inside entries name = some es) (hname : Quiet name) {dues : List Due}
    (hscan : ∀ path, Quiet path →
      Ordered dues (scanPatchdir t es (subs t es) [anyName] (place ++ [name]) path)) :
    OrderedRound (entryRound t (subs t entries) place) name dues := by
  intro path hpath s
  have hvisit : ∀ sub, Quiet sub → Ends
      (fun r => Quiet r.1 ∧ taken r.2.visits = taken s.visits ++ dues) (Begins dues s)
      (do
        let s ← scanPatchdir t es (subs t es) [anyName] (place ++ [name]) sub
          (s.visit place path name .scanned)
        .ok (path, s)) := by
    intro sub hsub
    have hs : taken (s.visit place path name .scanned).visits = taken s.visits := by
      rw [taken_visit]
      exact List.append_nil _
    have hrun := (hscan sub hsub).withPath hpath (s.visit place path name .scanned)
    unfold Begins at hrun ⊢
    rwa [hs] at hrun
  unfold inside at h
  unfold entryRound
  rw [lookup_subs]
  cases hl : entries.lookup name with
  | none =>
    rw [hl] at h
    cases h
  | some node =>
    rw [hl] at h
    rcases node with ⟨text, _ | es'⟩ | es'
    · cases h
    · dsimp only at h
      split at h
      · rename_i harchive
        obtain rfl := Option.some.inj h
        simp only [Option.map_some, Node.sub, Option.bind_some, harchive, if_true]
        exact hvisit _ hname.unpackedDir
      · cases h
    · obtain rfl := Option.some.inj h
      exact hvisit _ (hpath.sub hname)

/-- A scan of a tidy directory takes up what is due. -/
theorem Tidy.ordered {entries : Entries} {patterns : List Pattern} (h : Tidy t entries patterns)
    (place : List Text) : ∃ dues, Planned entries patterns place dues ∧ ∀ path, Quiet path →
      Ordered dues (scanPatchdir t entries (subs t entries) patterns place path) := by
  induction h generalizing place with
  | @series entries patterns node hseries hwords =>
    refine ⟨_, .series hseries, fun path hpath => ?_⟩
    unfold scanPatchdir
    rw [hseries]
    dsimp only
    rw [seriesWords_eq hpath hwords, List.map_eq_flatMap]
    exact ordered_loop _ (fun name _ => orderedRound_series entries place name) hpath
  | @sorted entries patterns hseries hargs hwords hquiet _ ih =>
    have hentry : ∀ name ∈ matchedNames entries patterns, ∃ dues,
        PlannedEntry entries place name dues ∧
          OrderedRound (entryRound t (subs t entries) place) name dues := by
      intro name hname
      cases hinside : inside entries name with
      | none => exact planned_of_inside_eq_none hinside
      | some es =>
        obtain ⟨dues, hplanned, hscan⟩ := ih name hname es hinside (place ++ [name])
        exact ⟨dues, .inside hinside hplanned,
          orderedRound_of_inside hinside (hquiet name hname es hinside) hscan⟩
    choose! dues hdues using hentry
    have hperm := List.perm_insertionSort (textLe · ·) (matchedNames entries patterns)
    refine ⟨_, .sorted dues hseries hperm (pairwise_sort _) fun name hname =>
      (hdues name (hperm.mem_iff.mp hname)).1, fun path hpath => ?_⟩
    unfold scanPatchdir
    rw [hseries]
    dsimp only
    rw [lsWords_eq hpath hargs hwords]
    exact ordered_loop dues (fun name hname => (hdues name (hperm.mem_iff.mp hname)).2) hpath

end

/-- A run over tidy names does what it should where every step of it is sound. -/
theorem conforms_of_sound {B : Type} (t : Tools B) (patchdir : Text) (entries : Entries)
    (patterns : List Pattern) (listed : List Text) (build : B) (hpatchdir : Quiet patchdir)
    (htidy : Tidy t entries patterns)
    (hsound : ∀ v ∈ (outcome (applyPatches t patchdir entries patterns listed build)).1.visits,
      Sound t v) :
    Conforms entries patterns listed (applyPatches t patchdir entries patterns listed build) := by
  have hsafe : Ends (Going t listed) (Stopped t listed)
      (applyPatches t patchdir entries patterns listed build) :=
    safe_scanPatchdir (safe_subs entries) entries patterns [] patchdir _ (going_nil build)
  have hkept := kept_of_ends hsafe
  obtain ⟨dues, hplanned, hordered⟩ := htidy.ordered []
  have htakes := hordered patchdir hpatchdir { listed, build, visits := [] }
  refine ⟨⟨dues, hplanned, ?_⟩, ?_, fun v hv hready => ?_, ?_, hkept.whole, hkept.before⟩
  · change Ends _ _ (applyPatches t patchdir entries patterns listed build) at htakes
    cases hr : applyPatches t patchdir entries patterns listed build with
    | ok s =>
      rw [hr] at htakes
      have htaken : taken s.visits = dues := htakes
      exact ⟨htaken ▸ List.prefix_rfl, fun _ => htaken⟩
    | error s =>
      rw [hr] at htakes
      obtain ⟨ds, hds, htaken⟩ := htakes
      have htaken : taken s.visits = ds := htaken
      exact ⟨htaken ▸ hds, nofun⟩
  · exact attempts_nodup hkept hsound _ [] (List.append_nil _).symm
  · rw [hkept.found v hv hready]
    exact ((hsound v hv).told hready).iff
  · intro v hv uncomped patched hfate hfail
    refine last_of_ends hsafe hv fun hpass => ?_
    rw [hfate] at hpass
    cases patched with
    | false => exact hpass
    | true =>
      rcases hfail with rfl | hfail
      · exact (hsound v hv).uncomped hfate
      · cases hfail

/-- A run that does what it should has been sound where the names are plain. -/
theorem sound_of_conforms {B : Type} (t : Tools B) (patchdir : Text) (entries : Entries)
    (patterns : List Pattern) (listed : List Text) (build : B)
    (h : Conforms entries patterns listed
      (applyPatches t patchdir entries patterns listed build)) :
    ∀ v ∈ (outcome (applyPatches t patchdir entries patterns listed build)).1.visits,
      Plain v.word → Sound t v := by
  have hsafe : Ends (Going t listed) (Stopped t listed)
      (applyPatches t patchdir entries patterns listed build) :=
    safe_scanPatchdir (safe_subs entries) entries patterns [] patchdir _ (going_nil build)
  have hkept := kept_of_ends hsafe
  intro v hv hplain
  refine ⟨fun hready => (told_iff hplain).mpr ?_, fun hfate => ?_⟩
  · rw [← hkept.found v hv hready]
    exact h.duplicate v hv hready
  · obtain ⟨hstop, hlast⟩ := h.stop v hv _ _ hfate (.inl rfl)
    cases hr : applyPatches t patchdir entries patterns listed build with
    | ok s =>
      rw [hr] at hstop
      cases hstop
    | error s =>
      rw [hr] at hsafe hlast
      obtain ⟨pre, w, hw, -, hpass⟩ := Stopped.last hsafe
      have hs : (outcome (.error s)).1.visits = pre ++ [w] := hw
      rw [hs, List.getLast?_concat, Option.some.injEq] at hlast
      rw [hlast, hfate] at hpass
      exact hpass trivial

/-! Two patches whose names differ in a dot. -/

def fitsDotted : Text → Text → Bool
  | [], [] => true
  | c :: p, d :: s => (c = '.' || c = d) && fitsDotted p s
  | [], _ :: _ | _ :: _, [] => false

theorem fitsDotted_iff (name s : Text) : fitsDotted name s = true ↔
    List.Forall₂ (fun c d => c = '.' ∨ c = d) name s := by
  induction name generalizing s with
  | nil =>
    cases s with
    | nil => exact iff_of_true rfl .nil
    | cons d s => exact iff_of_false Bool.false_ne_true nofun
  | cons c name ih =>
    cases s with
    | nil => exact iff_of_false Bool.false_ne_true nofun
    | cons d s =>
      rw [fitsDotted, List.forall₂_cons, Bool.and_eq_true, ih, Bool.or_eq_true,
        decide_eq_true_iff, decide_eq_true_iff]

/-- Programs that never fail, and a `grep` that knows the dot alone. -/
def plainTools : Tools Unit where
  pwd := ['/']
  builddir := "/build".toList
  expand w := [w]
  lsOptions _ := []
  lsAstray _ _ := []
  seriesAstray _ := []
  grepE pattern line := line.tails.any (fitsDotted pattern.dropLast)
  uncomp _ text := (text.getD [], true)
  patch _ _ := ((), true)
  outside _ := none
  quiet_pwd := ⟨by decide, by decide, by decide⟩
  quiet_builddir := ⟨by decide, by decide, by decide⟩
  expand_plain _ _ := rfl
  grepE_plain name line _ := by
    rw [List.dropLast_concat, List.any_eq_true]
    constructor
    · rintro ⟨s, hs, hfit⟩
      obtain ⟨pre, rfl⟩ := (List.mem_tails _ _).mp hs
      cases (fitsDotted_iff ('/' :: name) s).mp hfit with
      | cons h hrest =>
        rcases h with h | rfl
        · exact absurd h (by decide)
        · exact ⟨pre, _, rfl, hrest⟩
    · rintro ⟨pre, s, rfl, hrest⟩
      refine ⟨'/' :: s, (List.mem_tails _ _).mpr ⟨pre, rfl⟩, ?_⟩
      exact (fitsDotted_iff ('/' :: name) ('/' :: s)).mpr (.cons (.inr rfl) hrest)

def dotEntries : Entries :=
  [("fix-1.patch".toList, .file [] none), ("fix.1.patch".toList, .file [] none)]

/-- The second one is taken for the first. -/
theorem not_conforms : ¬ Conforms dotEntries [anyName] []
    (applyPatches plainTools "/p".toList dotEntries [anyName] [] ()) := by
  intro h
  have hv : (⟨[], "/p".toList, "fix.1.patch".toList, ["/p/fix-1.patch".toList], .duplicate⟩ : Visit) ∈
      (outcome (applyPatches plainTools "/p".toList dotEntries [anyName] [] ())).1.visits := by
    decide
  obtain ⟨line, hline, hname⟩ := (h.duplicate _ hv trivial).mp rfl
  rw [List.mem_singleton] at hline
  subst hline
  unfold Names at hname
  exact absurd hname (by decide)

def twoEntries : Entries :=
  [("b.patch".toList, .file [] none), ("a.patch".toList, .file [] none)]

theorem inside_twoEntries : ∀ name ∈ matchedNames twoEntries [anyName],
    inside twoEntries name = none := by
  have hnone : ∀ name ∈ matchedNames twoEntries [anyName],
      (inside twoEntries name).isNone = true := by
    decide
  exact fun name hname => Option.isNone_iff_eq_none.mp (hnone name hname)

theorem tidy_twoEntries : Tidy plainTools twoEntries [anyName] :=
  .sorted (by decide) (by decide) (by decide)
    (fun name hname es hes => by simp [inside_twoEntries name hname] at hes)
    (fun name hname es hes => by simp [inside_twoEntries name hname] at hes)

/-- `a.patch`, then `b.patch`. -/
theorem conforms_twoEntries : Conforms twoEntries [anyName] []
    (applyPatches plainTools "/p".toList twoEntries [anyName] [] ()) := by
  refine conforms_of_sound plainTools _ _ _ _ _ ⟨by decide, by decide, by decide⟩ tidy_twoEntries ?_
  have hvisits : (outcome (applyPatches plainTools "/p".toList twoEntries [anyName] [] ())).1.visits =
      [⟨[], "/p".toList, "a.patch".toList, [], .applied true true⟩,
        ⟨[], "/p".toList, "b.patch".toList, ["/p/a.patch".toList], .applied true true⟩] := by
    decide
  rw [hvisits]
  refine List.forall_mem_cons.mpr ⟨⟨fun _ => ?_, nofun⟩, List.forall_mem_singleton.mpr
    ⟨fun _ => ?_, nofun⟩⟩
  · refine (told_iff (by decide)).mpr (iff_of_false ?_ ?_) <;> simp
  · unfold Told
    rw [if_pos (by decide)]
    rintro ⟨line, hline, hdotted⟩
    obtain rfl := List.mem_singleton.mp hline
    have hgrep := (plainTools.grepE_plain _ _ (by decide)).mpr hdotted
    exact absurd hgrep (by decide)

end Dir842.ApplyPatches
