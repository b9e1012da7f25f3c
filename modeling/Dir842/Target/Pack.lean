import Mathlib.Data.List.Basic
import Mathlib.Data.List.Nodup
import Mathlib.Logic.Function.Basic

/-!
# Packing the firmware image (`pack.py`)

`BINARIES_DIR` is a map from names to contents. The programs that `os.system` runs are functions of
their input that may fail, in which case they leave their output alone; `os.system` does not look.
An exception ends the script without success, and is `none`. The command lines name the files
without quotes: for `sh` the name of a part's file, `fw[kernel].bin`, is a pattern, which stands for
the files of the directory that it matches and for itself only where there are none.
-/

namespace Dir842.Pack

abbrev Bytes := List UInt8
abbrev Name := List Char
abbrev Dir := Name → Option Bytes

structure Tools where
  /-- From the input file and the attribute file. -/
  dlinkhdr : Bytes → Bytes → Option Bytes
  signfe : Bytes → Option Bytes
  sign : Bytes → Option Bytes
  /-- The characters that `sh` takes the pattern `[name]` for behind a prefix. -/
  bracket : Name → Name → List Char
  /-- What a program makes of a file when `sh` hands it several files in the place of one. -/
  several : List Name → Dir → Name → Bytes → Bytes

structure Part where
  name : Name
  arch : Bool
  source : Option Name
  attr : Option (List Bytes)

def tmpFull : Name := "tmp_full.bin".toList

def fwImagePrefix (fwImageName : Name) : Name :=
  if fwImageName.drop (fwImageName.length - 4) = ".bin".toList then
    fwImageName.take (fwImageName.length - 4)
  else fwImageName

def getImgName (fwImageName name : Name) : Name :=
  fwImagePrefix fwImageName ++ '[' :: name ++ ']' :: ".bin".toList

/-- The name that the pattern `getImgName` matches with the character `c`. -/
def matchedName (fwImageName : Name) (c : Char) : Name :=
  fwImagePrefix fwImageName ++ c :: ".bin".toList

def attrName (name : Name) : Name := name ++ ".attr".toList

/-! ### Files -/

def touchEmpty (name : Name) (d : Dir) : Dir := Function.update d name (some [])

def catFile (src dst : Name) (d : Dir) : Option Dir :=
  (d src).map fun content => Function.update d dst (some ((d dst).getD [] ++ content))

def unlink (name : Name) (d : Dir) : Option Dir :=
  (d name).map fun _ => Function.update d name none

def rename (src dst : Name) (d : Dir) : Option Dir :=
  (d src).map fun content => Function.update (Function.update d src none) dst (some content)

/-- A program with the words that `sh` has put in the place of the file it writes, and what it writes
when there is one. -/
def system (tools : Tools) (words : List Name) (result : Name → Option Bytes) (d : Dir) : Dir :=
  match words with
  | [name] =>
    match result name with
    | some content => Function.update d name (some content)
    | none => d
  | words => fun x => if words.contains x then (d x).map (tools.several words d x) else d x

/-! ### The script -/

section script
variable (tools : Tools) (fwImageName : Name)

/-- What `sh` makes of the unquoted name of a part's file. -/
def expand (name : Name) (d : Dir) : List Name :=
  let matched := ((tools.bracket (fwImagePrefix fwImageName) name).map (matchedName fwImageName)).filter
    fun x => (d x).isSome
  if matched = [] then [getImgName fwImageName name] else matched

def attrText (p : Part) : Bytes := (p.attr.getD []).flatMap (· ++ [10])

/-- The output file is always the one of the part. -/
def dlinkPack (p : Part) (d : Dir) : Option Dir :=
  match p.source with
  | none => some d
  | some source =>
    let d := Function.update d (attrName p.name) (some (attrText p))
    let wrapped := (d source).bind fun content =>
      (d (attrName p.name)).bind fun attr => tools.dlinkhdr content attr
    let d := system tools (expand tools fwImageName p.name d) (fun _ => wrapped) d
    unlink (attrName p.name) d

/-- The loop over the arch parts, with `arch_name`. -/
def packArch : List Part → Dir → Name → Option (Dir × Name)
  | [], d, archName => some (d, archName)
  | p :: parts, d, archName =>
    if p.arch then (catFile fwImageName tmpFull d).bind fun d => packArch parts d p.name
    else packArch parts d archName

/-- One part of the second loop. -/
def packPart (p : Part) (d : Dir) : Option Dir := do
  let partName := getImgName fwImageName p.name
  let d ← dlinkPack tools fwImageName p d
  let d ← catFile partName tmpFull d
  return system tools (expand tools fwImageName p.name d) (fun x => (d x).bind tools.signfe) d

/-- The loop over the other parts, with `dlinkhdr_cnt`. -/
def packParts : List Part → Dir → Nat → Option (Dir × Nat)
  | [], d, cnt => some (d, cnt)
  | p :: parts, d, cnt =>
    if p.arch then packParts parts d cnt
    else (packPart tools fwImageName p d).bind fun d => packParts parts d (cnt + 1)

/-- What follows the loops. -/
def finish (d : Dir) (archName : Name) (dlinkhdrCnt : Nat) : Option Dir := do
  let d := system tools [tmpFull] (fun x => (d x).bind tools.sign) d
  let d ← if archName = [] then unlink fwImageName d else some d
  if 0 < dlinkhdrCnt then
    let d ← if archName ≠ [] then rename fwImageName (getImgName fwImageName archName) d else some d
    rename tmpFull fwImageName d
  else unlink tmpFull d

def pack (parts : List Part) (d : Dir) : Option Dir := do
  let d := touchEmpty tmpFull d
  let (d, archName) ← packArch fwImageName parts d []
  let (d, dlinkhdrCnt) ← packParts tools fwImageName parts d 0
  finish tools fwImageName d archName dlinkhdrCnt

end script

/-! ### Names -/

theorem getImgName_injective {fw a b : Name} (h : getImgName fw a = getImgName fw b) : a = b := by
  simpa [getImgName] using h

theorem getImgName_ne_tmp (fw name : Name) : getImgName fw name ≠ tmpFull := by
  intro h
  have hmem : '[' ∈ tmpFull := h ▸ (by simp [getImgName])
  exact absurd hmem (by decide)

theorem getLast?_getImgName (fw name : Name) : (getImgName fw name).getLast? = some 'n' := by
  obtain ⟨l, hl⟩ : ∃ l, getImgName fw name = l ++ '[' :: name ++ ']' :: ".bin".toList := ⟨_, rfl⟩
  have happend : getImgName fw name = (l ++ '[' :: name ++ "].bi".toList) ++ ['n'] := by simp [hl]
  rw [happend, List.getLast?_concat]

theorem getLast?_attrName (name : Name) : (attrName name).getLast? = some 'r' := by
  simp [attrName, List.getLast?_append]

theorem getImgName_ne_attr (fw name name' : Name) : getImgName fw name ≠ attrName name' := by
  intro h
  have hlast := congrArg List.getLast? h
  rw [getLast?_getImgName, getLast?_attrName] at hlast
  exact absurd hlast (by decide)

theorem attrName_ne_tmp (name : Name) : attrName name ≠ tmpFull := by
  intro h
  have hlast := congrArg List.getLast? h
  rw [getLast?_attrName] at hlast
  exact absurd hlast (by decide)

theorem getLast?_matchedName (fw : Name) (c : Char) : (matchedName fw c).getLast? = some 'n' := by
  simp [matchedName, List.getLast?_append]

theorem length_fwImagePrefix (fw : Name) :
    fw.length ≤ (fwImagePrefix fw).length ∨
      4 ≤ fw.length ∧ (fwImagePrefix fw).length = fw.length - 4 := by
  unfold fwImagePrefix
  split
  · next h =>
    have hlen := congrArg List.length h
    simp at hlen
    exact .inr ⟨by omega, by simp⟩
  · exact .inl (Nat.le_refl _)

theorem getImgName_ne_fw (fw name : Name) : getImgName fw name ≠ fw := by
  intro h
  have hlen := congrArg List.length h
  simp [getImgName] at hlen
  have := length_fwImagePrefix fw
  omega

theorem matchedName_ne_fw (fw : Name) (c : Char) : matchedName fw c ≠ fw := by
  intro h
  have hlen := congrArg List.length h
  simp [matchedName] at hlen
  have := length_fwImagePrefix fw
  omega

theorem getImgName_ne_matchedName (fw name : Name) (c : Char) :
    getImgName fw name ≠ matchedName fw c := by
  intro h
  have hlen := congrArg List.length h
  simp [getImgName, matchedName] at hlen

theorem matchedName_ne_attr (fw name : Name) (c : Char) : matchedName fw c ≠ attrName name := by
  intro h
  have hlast := congrArg List.getLast? h
  rw [getLast?_matchedName, getLast?_attrName] at hlast
  exact absurd hlast (by decide)

/-! ### The composition -/

/-- The part list and the image name of a build. -/
structure Job where
  fwImageName : Name
  parts : List Part
  nodup : (parts.map (·.name)).Nodup
  arch_le_one : (parts.filter (·.arch)).length ≤ 1

/-- The characters that a command line needs quotes for, and the slash. -/
def special : List Char := " \t\n|&;<>()$`\\\"'*?[]\x7b\x7d!^/".toList

def Plain (name : Name) : Prop := ∀ c ∈ name, c ∉ special

instance (name : Name) : Decidable (Plain name) := List.decidableBAll _ _

namespace Job
variable (job : Job) (tools : Tools)

/-- The parts that are not marked arch. -/
def others : List Part := job.parts.filter fun p => !p.arch

def partFile (p : Part) : Name := getImgName job.fwImageName p.name

theorem partFile_eq (p : Part) : job.partFile p = getImgName job.fwImageName p.name := rfl

/-- The files that the script and its commands may write for a part besides its own. -/
def Scratch (p : Part) (x : Name) : Prop :=
  x = attrName p.name ∨ ∃ c ∈ tools.bracket (fwImagePrefix job.fwImageName) p.name,
    x = matchedName job.fwImageName c

instance (p : Part) (x : Name) : Decidable (job.Scratch tools p x) :=
  @instDecidableOr _ _ _ (List.decidableBEx _ _)

/-- Names that `sh` leaves as they are (the patterns of the part files apart), where no scratch file is
the image or anybody's source. -/
structure Clear : Prop where
  plain_fwImageName : Plain job.fwImageName
  plain_name : ∀ p ∈ job.parts, Plain p.name
  plain_source : ∀ p ∈ job.parts, ∀ s ∈ p.source, Plain s
  fwImageName_ne : job.fwImageName ≠ tmpFull ∧
    ∀ p ∈ job.parts, job.fwImageName ≠ attrName p.name
  source_ne : ∀ p ∈ job.parts, ∀ s ∈ p.source,
    s ≠ tmpFull ∧ ∀ q ∈ job.parts, ¬ job.Scratch tools q s

/-- A file stands in the directory, once `tmp_full.bin` is there, that the name of the part's file
matches as a pattern. -/
def Matches (d : Dir) (p : Part) : Prop :=
  ∃ c ∈ tools.bracket (fwImagePrefix job.fwImageName) p.name,
    (touchEmpty tmpFull d (matchedName job.fwImageName c)).isSome

instance (d : Dir) (p : Part) : Decidable (job.Matches tools d p) := List.decidableBEx _ _

/-- The dlinkhdr-wrapped form of a part. -/
def wrapped (d : Dir) (p : Part) : Option Bytes :=
  p.source.bind fun source => (d source).bind fun content => tools.dlinkhdr content (attrText p)

/-- The architecture image, if the list has it, and the wrapped parts in the order of the list. -/
def fullImage (d : Dir) : Bytes :=
  (if job.parts.any (·.arch) then (d job.fwImageName).getD [] else []) ++
    job.others.flatMap fun p => (wrapped tools d p).getD []

def run (d : Dir) : Option Dir := pack tools job.fwImageName job.parts d

/-- What `pack.py` leaves behind when it exits with success. -/
structure Composed (d d' : Dir) : Prop where
  image : job.others ≠ [] → ∃ y, tools.sign (job.fullImage tools d) = some y ∧
    d' job.fwImageName = some y
  part : ∀ p ∈ job.others, ∃ w y, wrapped tools d p = some w ∧ tools.signfe w = some y ∧
    d' (job.partFile p) = some y
  arch : job.others = [] → job.parts ≠ [] → d' job.fwImageName = d job.fwImageName
  isSome : (d' job.fwImageName).isSome
  /-- Other part files of an earlier build give the same result. -/
  stale : ∀ e, (∀ x, (∀ p ∈ job.others, x ≠ job.partFile p) → e x = d x) →
    ∃ e', job.run tools e = some e' ∧ e' job.fwImageName = d' job.fwImageName ∧
      ∀ p ∈ job.others, e' (job.partFile p) = d' (job.partFile p)

/-- What stands in the part file when it is added to the full image: the wrapped part, or what an
earlier build has left. -/
def content (d : Dir) (p : Part) : Option Bytes :=
  if job.Matches tools d p then d (job.partFile p) else (wrapped tools d p).or (d (job.partFile p))

def signed (c : Bytes) : Bytes := (tools.signfe c).getD c

/-! ### What `sh` makes of the name of a part's file -/

section system
variable {job : Job} {tools : Tools} {d : Dir} {p : Part}

theorem isSome_touchEmpty (htmp : (d tmpFull).isSome) (x : Name) :
    (touchEmpty tmpFull d x).isSome = (d x).isSome := by
  by_cases hx : x = tmpFull
  · simp [touchEmpty, hx, htmp]
  · simp [touchEmpty, hx]

theorem matches_iff (htmp : (d tmpFull).isSome) : job.Matches tools d p ↔
    ∃ c ∈ tools.bracket (fwImagePrefix job.fwImageName) p.name,
      (d (matchedName job.fwImageName c)).isSome := by
  simp only [Matches, isSome_touchEmpty htmp]

theorem expand_eq (htmp : (d tmpFull).isSome) (hp : ¬ job.Matches tools d p) :
    expand tools job.fwImageName p.name d = [job.partFile p] := by
  rw [matches_iff htmp] at hp
  push Not at hp
  refine if_pos (List.filter_eq_nil_iff.mpr fun x hx => ?_)
  obtain ⟨c, hc, rfl⟩ := List.mem_map.mp hx
  simpa using hp c hc

/-- Where the pattern matches, the part's own file is none of the words. -/
theorem mem_expand (htmp : (d tmpFull).isSome) (hp : job.Matches tools d p) {x : Name}
    (hx : x ∈ expand tools job.fwImageName p.name d) : (d x).isSome ∧
      ∃ c ∈ tools.bracket (fwImagePrefix job.fwImageName) p.name,
        x = matchedName job.fwImageName c := by
  obtain ⟨c, hc, hsome⟩ := (matches_iff htmp).mp hp
  unfold expand at hx
  rw [if_neg fun h => List.filter_eq_nil_iff.mp h _ (List.mem_map_of_mem hc) hsome] at hx
  obtain ⟨hx, hsome⟩ := List.mem_filter.mp hx
  obtain ⟨c, hc, rfl⟩ := List.mem_map.mp hx
  exact ⟨hsome, c, hc, rfl⟩

theorem system_of_not_mem {words : List Name} {x : Name} (hx : x ∉ words)
    (result : Name → Option Bytes) (d : Dir) : system tools words result d x = d x := by
  unfold system
  split
  · cases result _ with
    | none => rfl
    | some c => exact Function.update_of_ne (by simpa using hx) _ _
  · exact if_neg (List.contains_iff_mem.not.mpr hx)

theorem isSome_system {words : List Name} (hwords : ∀ x ∈ words, (d x).isSome)
    (result : Name → Option Bytes) (x : Name) :
    (system tools words result d x).isSome = (d x).isSome := by
  by_cases hx : x ∈ words
  · rw [hwords x hx]
    unfold system
    split
    · obtain rfl := List.mem_singleton.mp hx
      cases result x with
      | none => exact hwords x hx
      | some c => simp
    · simp [hx, hwords x hx]
  · rw [system_of_not_mem hx]

theorem system_singleton (name : Name) (result : Name → Option Bytes) (d : Dir) :
    system tools [name] result d = Function.update d name ((result name).or (d name)) := by
  simp only [system]
  cases result name with
  | none => exact (Function.update_eq_self name d).symm
  | some c => rfl

theorem system_expand_of_matches (htmp : (d tmpFull).isSome) (hp : job.Matches tools d p)
    (result : Name → Option Bytes) :
    (∀ x, (system tools (expand tools job.fwImageName p.name d) result d x).isSome = (d x).isSome) ∧
      ∀ x, (∀ c ∈ tools.bracket (fwImagePrefix job.fwImageName) p.name,
        x ≠ matchedName job.fwImageName c) →
        system tools (expand tools job.fwImageName p.name d) result d x = d x := by
  refine ⟨isSome_system (fun x hx => (mem_expand htmp hp hx).1) result, fun x hx => ?_⟩
  refine system_of_not_mem (fun hmem => ?_) _ _
  obtain ⟨-, c, hc, rfl⟩ := mem_expand htmp hp hmem
  exact hx c hc rfl

theorem system_expand (htmp : (d tmpFull).isSome) (hp : ¬ job.Matches tools d p)
    (result : Name → Option Bytes) :
    system tools (expand tools job.fwImageName p.name d) result d =
      Function.update d (job.partFile p) ((result (job.partFile p)).or (d (job.partFile p))) := by
  rw [expand_eq htmp hp, system_singleton]

end system

/-! ### One part -/

variable {job tools}

/-- What one part may not write. -/
def Untouched (job : Job) (tools : Tools) (p : Part) (x : Name) : Prop :=
  ¬ job.Scratch tools p x ∧ x ≠ job.partFile p ∧ x ≠ tmpFull

theorem partFile_ne_tmp (p : Part) : job.partFile p ≠ tmpFull := getImgName_ne_tmp _ _

theorem partFile_ne_matchedName (p : Part) (c : Char) :
    job.partFile p ≠ matchedName job.fwImageName c :=
  getImgName_ne_matchedName _ _ _

theorem not_scratch_partFile (p q : Part) : ¬ job.Scratch tools p (job.partFile q) := by
  rintro (h | ⟨c, -, h⟩)
  · exact getImgName_ne_attr _ _ _ h
  · exact getImgName_ne_matchedName _ _ _ h

theorem Clear.ne_partFile (hclear : job.Clear tools) {p : Part} (hp : p ∈ job.parts) :
    ∀ s ∈ p.source, ∀ q, s ≠ job.partFile q := by
  rintro s hs q rfl
  exact hclear.plain_source p hp _ hs '[' (by simp [partFile, getImgName]) (by decide)

theorem Clear.untouched_source (hclear : job.Clear tools) {p q : Part} (hp : p ∈ job.parts)
    (hq : q ∈ job.parts) : ∀ s ∈ q.source, job.Untouched tools p s := fun s hs =>
  have h := hclear.source_ne q hq s hs
  ⟨h.2 p hp, hclear.ne_partFile hq s hs p, h.1⟩

theorem untouched_partFile {p q : Part} (hne : q.name ≠ p.name) :
    job.Untouched tools p (job.partFile q) :=
  ⟨not_scratch_partFile p q, fun h => hne (getImgName_injective h), getImgName_ne_tmp _ _⟩

theorem Clear.untouched_fwImageName (hclear : job.Clear tools) {p : Part} (hp : p ∈ job.parts) :
    job.Untouched tools p job.fwImageName := by
  refine ⟨?_, (getImgName_ne_fw _ _).symm, hclear.fwImageName_ne.1⟩
  rintro (h | ⟨c, -, h⟩)
  · exact hclear.fwImageName_ne.2 p hp h
  · exact matchedName_ne_fw _ _ h.symm

/-- What one part leaves as it was: the files that are none of its own, and whether a file is there
that some pattern matches. -/
structure Keeps (job : Job) (tools : Tools) (p : Part) (d d' : Dir) : Prop where
  untouched : ∀ x, job.Untouched tools p x → d' x = d x
  isSome_matchedName : ∀ c, (d' (matchedName job.fwImageName c)).isSome =
    (d (matchedName job.fwImageName c)).isSome
  isSome_tmp : (d' tmpFull).isSome

theorem Keeps.matches_iff {p : Part} {d d' : Dir} (hkeeps : job.Keeps tools p d d')
    (htmp : (d tmpFull).isSome) (q : Part) :
    job.Matches tools d' q ↔ job.Matches tools d q := by
  rw [Job.matches_iff htmp, Job.matches_iff hkeeps.isSome_tmp]
  simp only [hkeeps.isSome_matchedName]

theorem Keeps.trans {p : Part} {d d' d'' : Dir} (h : job.Keeps tools p d d')
    (h' : job.Keeps tools p d' d'') : job.Keeps tools p d d'' :=
  ⟨fun x hx => (h'.untouched x hx).trans (h.untouched x hx),
    fun c => (h'.isSome_matchedName c).trans (h.isSome_matchedName c), h'.isSome_tmp⟩

theorem keeps_system {p : Part} {d : Dir} (htmp : (d tmpFull).isSome)
    (result : Name → Option Bytes) : job.Keeps tools p d
      (system tools (expand tools job.fwImageName p.name d) result d) := by
  by_cases hp : job.Matches tools d p
  · obtain ⟨hsome, hframe⟩ := system_expand_of_matches htmp hp result
    refine ⟨fun x hx => hframe x fun c hc h => hx.1 (.inr ⟨c, hc, h⟩), fun c => hsome _, ?_⟩
    rw [hsome, htmp]
  · rw [system_expand htmp hp]
    refine ⟨fun x hx => Function.update_of_ne hx.2.1 _ _, fun c => ?_, ?_⟩
    · rw [Function.update_of_ne (partFile_ne_matchedName p c).symm]
    · rwa [Function.update_of_ne (partFile_ne_tmp p).symm]

theorem keeps_update_attr {p : Part} {d : Dir} (htmp : (d tmpFull).isSome) (c : Option Bytes) :
    job.Keeps tools p d (Function.update d (attrName p.name) c) := by
  refine ⟨fun x hx => Function.update_of_ne (fun h => hx.1 (.inl h)) _ _, fun c => ?_, ?_⟩
  · rw [Function.update_of_ne (matchedName_ne_attr _ _ _)]
  · rwa [Function.update_of_ne (attrName_ne_tmp _).symm]

theorem dlinkPack_eq (hclear : job.Clear tools) {p : Part} (hp : p ∈ job.parts) {d : Dir}
    (htmp : (d tmpFull).isSome) :
    ∃ d', dlinkPack tools job.fwImageName p d = some d' ∧ job.Keeps tools p d d' ∧
      d' (job.partFile p) = job.content tools d p ∧
      (¬ job.Matches tools d p → d' tmpFull = d tmpFull) := by
  cases hsource : p.source with
  | none =>
    refine ⟨d, by simp [dlinkPack, hsource], ⟨fun _ _ => rfl, fun _ => rfl, htmp⟩, ?_, fun _ => rfl⟩
    simp [content, wrapped, hsource]
  | some source =>
    have hs : source ≠ attrName p.name := fun h =>
      (hclear.source_ne p hp source hsource).2 p hp (.inl h)
    have hfile : job.partFile p ≠ attrName p.name := getImgName_ne_attr _ _ _
    set d₁ := Function.update d (attrName p.name) (some (attrText p)) with hd₁
    have hkeeps₁ : job.Keeps tools p d d₁ := keeps_update_attr htmp _
    have hmatches := hkeeps₁.matches_iff htmp p
    have hwrapped : ((d₁ source).bind fun content => (d₁ (attrName p.name)).bind fun attr =>
        tools.dlinkhdr content attr) = wrapped tools d p := by
      simp [wrapped, hsource, hd₁, hs]
    set d₂ := system tools (expand tools job.fwImageName p.name d₁) (fun _ => wrapped tools d p) d₁
      with hd₂
    have hkeeps₂ : job.Keeps tools p d₁ d₂ := keeps_system hkeeps₁.isSome_tmp _
    have hrun : dlinkPack tools job.fwImageName p d = unlink (attrName p.name) d₂ := by
      unfold dlinkPack
      rw [hsource]
      simp only [← hd₁, hwrapped, ← hd₂]
    have hattr : d₂ (attrName p.name) = some (attrText p) ∧
        d₂ (job.partFile p) = job.content tools d p ∧
        (¬ job.Matches tools d p → d₂ tmpFull = d tmpFull) := by
      by_cases hm : job.Matches tools d p
      · obtain ⟨-, hframe⟩ := system_expand_of_matches hkeeps₁.isSome_tmp (hmatches.mpr hm)
          fun _ => wrapped tools d p
        refine ⟨?_, ?_, fun h => absurd hm h⟩
        · rw [hd₂, hframe _ fun c _ => (matchedName_ne_attr _ _ _).symm, hd₁, Function.update_self]
        · rw [hd₂, hframe _ fun c _ => partFile_ne_matchedName p c, hd₁,
            Function.update_of_ne hfile, content, if_pos hm]
      · rw [hd₂, system_expand hkeeps₁.isSome_tmp (hmatches.not.mpr hm)]
        refine ⟨?_, ?_, fun _ => ?_⟩
        · rw [Function.update_of_ne hfile.symm, hd₁, Function.update_self]
        · rw [Function.update_self, hd₁, Function.update_of_ne hfile, content, if_neg hm]
        · rw [Function.update_of_ne (partFile_ne_tmp p).symm, hd₁,
            Function.update_of_ne (attrName_ne_tmp _).symm]
    refine ⟨Function.update d₂ (attrName p.name) none, ?_, ?_, ?_, fun hm => ?_⟩
    · rw [hrun, unlink, hattr.1, Option.map_some]
    · exact (hkeeps₁.trans hkeeps₂).trans (keeps_update_attr hkeeps₂.isSome_tmp _)
    · rw [Function.update_of_ne hfile, hattr.2.1]
    · rw [Function.update_of_ne (attrName_ne_tmp _).symm, hattr.2.2 hm]

theorem packPart_none (hclear : job.Clear tools) {p : Part} (hp : p ∈ job.parts) {d : Dir}
    (htmp : (d tmpFull).isSome) (hnone : job.content tools d p = none) :
    packPart tools job.fwImageName p d = none := by
  obtain ⟨d₁, hd₁, -, hfile, -⟩ := dlinkPack_eq hclear hp htmp
  rw [hnone] at hfile
  simp [packPart, ← partFile_eq, hd₁, catFile, hfile]

theorem packPart_some (hclear : job.Clear tools) {p : Part} (hp : p ∈ job.parts) {d : Dir}
    {c : Bytes} (htmp : (d tmpFull).isSome) (hsome : job.content tools d p = some c) :
    ∃ d', packPart tools job.fwImageName p d = some d' ∧ job.Keeps tools p d d' ∧
      (¬ job.Matches tools d p → d' (job.partFile p) = some (signed tools c) ∧
        d' tmpFull = some ((d tmpFull).getD [] ++ c)) := by
  obtain ⟨d₁, hd₁, hkeeps₁, hfile, htmp₁⟩ := dlinkPack_eq hclear hp htmp
  have hfile_tmp : job.partFile p ≠ tmpFull := partFile_ne_tmp p
  rw [hsome] at hfile
  set t := (d₁ tmpFull).getD [] ++ c with ht
  set d₂ := Function.update d₁ tmpFull (some t) with hd₂
  have hcat : catFile (job.partFile p) tmpFull d₁ = some d₂ := by
    rw [catFile, hfile, Option.map_some]
  have hkeeps₂ : job.Keeps tools p d₁ d₂ := by
    refine ⟨fun x hx => Function.update_of_ne hx.2.2 _ _, fun c => ?_, by simp [hd₂]⟩
    by_cases hx : matchedName job.fwImageName c = tmpFull
    · rw [hx, hkeeps₁.isSome_tmp]
      simp [hd₂]
    · rw [hd₂, Function.update_of_ne hx]
  have hfile₂ : d₂ (job.partFile p) = some c := by rw [hd₂, Function.update_of_ne hfile_tmp, hfile]
  set d₃ := system tools (expand tools job.fwImageName p.name d₂)
    (fun x => (d₂ x).bind tools.signfe) d₂ with hd₃
  refine ⟨d₃, ?_, (hkeeps₁.trans hkeeps₂).trans (keeps_system hkeeps₂.isSome_tmp _), fun hm => ?_⟩
  · simp only [packPart, ← partFile_eq, hd₁, hcat, Option.bind_eq_bind, Option.bind_some, ← hd₃]
    rfl
  · have hm₂ : ¬ job.Matches tools d₂ p := by
      rwa [hkeeps₂.matches_iff hkeeps₁.isSome_tmp, hkeeps₁.matches_iff htmp]
    rw [hd₃, system_expand hkeeps₂.isSome_tmp hm₂, hfile₂, Option.bind_some]
    constructor
    · rw [Function.update_self, signed]
      cases tools.signfe c <;> rfl
    · rw [Function.update_of_ne hfile_tmp.symm, hd₂, Function.update_self, ht, htmp₁ hm]

/-- A part sees of the directory only its source, its own file and whether its pattern matches. -/
theorem content_congr {p : Part} {d d' : Dir} (hsource : ∀ s ∈ p.source, d' s = d s)
    (hfile : d' (job.partFile p) = d (job.partFile p))
    (hmatches : job.Matches tools d' p ↔ job.Matches tools d p) :
    job.content tools d' p = job.content tools d p := by
  have hwrapped : wrapped tools d' p = wrapped tools d p := by
    unfold wrapped
    cases h : p.source with
    | none => rfl
    | some s => rw [Option.bind_some, Option.bind_some, hsource s h]
  simp only [content, hmatches, hfile, hwrapped]

/-! ### The loops -/

/-- The parts behind one see what they saw before it. -/
theorem Keeps.content_eq (hclear : job.Clear tools) {p q : Part} (hp : p ∈ job.parts)
    (hq : q ∈ job.parts) (hne : q.name ≠ p.name) {d d' : Dir} (hkeeps : job.Keeps tools p d d')
    (htmp : (d tmpFull).isSome) : job.content tools d' q = job.content tools d q :=
  content_congr (fun s hs => hkeeps.untouched s (hclear.untouched_source hp hq s hs))
    (hkeeps.untouched _ (untouched_partFile hne)) (hkeeps.matches_iff htmp q)

theorem packParts_none (hclear : job.Clear tools) {ps : List Part} (hsub : ∀ p ∈ ps, p ∈ job.parts)
    (hnodup : (ps.map (·.name)).Nodup) {d : Dir} (htmp : (d tmpFull).isSome) (cnt : Nat)
    {p : Part} (hp : p ∈ ps) (harch : p.arch = false) (hnone : job.content tools d p = none) :
    packParts tools job.fwImageName ps d cnt = none := by
  induction ps generalizing d cnt with
  | nil => simp at hp
  | cons q qs ih =>
    obtain ⟨hq, hqs⟩ := List.forall_mem_cons.mp hsub
    rw [List.map_cons, List.nodup_cons] at hnodup
    unfold packParts
    by_cases hqarch : q.arch = true
    · have hp' : p ∈ qs := by
        rcases List.mem_cons.mp hp with rfl | hp'
        · simp [hqarch] at harch
        · exact hp'
      simp only [hqarch, if_true]
      exact ih hqs hnodup.2 htmp cnt hp' hnone
    simp only [hqarch, Bool.false_eq_true, if_false]
    cases hc : job.content tools d q with
    | none =>
      rw [packPart_none hclear hq htmp hc]
      rfl
    | some c =>
      obtain ⟨d₁, hd₁, hkeeps, -⟩ := packPart_some hclear hq htmp hc
      rcases List.mem_cons.mp hp with rfl | hp'
      · simp [hc] at hnone
      have hname : p.name ≠ q.name := fun h =>
        hnodup.1 (h ▸ List.mem_map.mpr ⟨p, hp', rfl⟩)
      rw [hd₁, Option.bind_some]
      refine ih hqs hnodup.2 hkeeps.isSome_tmp _ hp' ?_
      rw [hkeeps.content_eq hclear hq (hqs p hp') hname htmp, hnone]

theorem packParts_some (hclear : job.Clear tools) {ps : List Part}
    (hsub : ∀ p ∈ ps, p ∈ job.parts) (hnodup : (ps.map (·.name)).Nodup) {d : Dir}
    (htmp : (d tmpFull).isSome) (cnt : Nat) {c : Part → Bytes}
    (hc : ∀ p ∈ ps, p.arch = false → job.content tools d p = some (c p)) :
    ∃ d', packParts tools job.fwImageName ps d cnt =
        some (d', cnt + (ps.filter fun p => !p.arch).length) ∧ (d' tmpFull).isSome ∧
      (∀ x, (∀ p ∈ ps, job.Untouched tools p x) → x ≠ tmpFull → d' x = d x) ∧
      ((∀ p ∈ ps, p.arch = false → ¬ job.Matches tools d p) →
        (∀ p ∈ ps, p.arch = false → d' (job.partFile p) = some (signed tools (c p))) ∧
        d' tmpFull = some ((d tmpFull).getD [] ++ (ps.filter fun p => !p.arch).flatMap c)) := by
  induction ps generalizing d cnt with
  | nil =>
    obtain ⟨t, ht⟩ := Option.isSome_iff_exists.mp htmp
    exact ⟨d, by simp [packParts], htmp, fun _ _ _ => rfl, fun _ => ⟨by simp, by simp [ht]⟩⟩
  | cons q qs ih =>
    obtain ⟨hq, hqs⟩ := List.forall_mem_cons.mp hsub
    rw [List.map_cons, List.nodup_cons] at hnodup
    unfold packParts
    by_cases hqarch : q.arch = true
    · obtain ⟨d', hrun, htmp', hframe, hright⟩ := ih hqs hnodup.2 htmp cnt
        fun p hp => hc p (List.mem_cons_of_mem q hp)
      refine ⟨d', ?_, htmp', fun x hx => hframe x fun p hp => hx p (List.mem_cons_of_mem q hp),
        fun hnot => ?_⟩
      · simpa [hqarch] using hrun
      · obtain ⟨hfiles, hfull⟩ := hright fun p hp => hnot p (List.mem_cons_of_mem q hp)
        refine ⟨fun p hp harch => ?_, by simpa [hqarch] using hfull⟩
        rcases List.mem_cons.mp hp with rfl | hp
        · simp [hqarch] at harch
        · exact hfiles p hp harch
    have hqarch' : q.arch = false := by simpa using hqarch
    obtain ⟨d₁, hd₁, hkeeps, hright₁⟩ :=
      packPart_some hclear hq htmp (hc q (List.mem_cons_self ..) hqarch')
    have hname : ∀ p ∈ qs, p.name ≠ q.name := fun p hp h =>
      hnodup.1 (h ▸ List.mem_map.mpr ⟨p, hp, rfl⟩)
    obtain ⟨d', hrun, htmp', hframe, hright⟩ := ih hqs hnodup.2 hkeeps.isSome_tmp (cnt + 1)
      fun p hp harch => by
        rw [hkeeps.content_eq hclear hq (hqs p hp) (hname p hp) htmp,
          hc p (List.mem_cons_of_mem q hp) harch]
    refine ⟨d', ?_, htmp', fun x hx hxtmp => ?_, fun hnot => ?_⟩
    · simp [hqarch', hd₁, hrun]
      omega
    · rw [hframe x (fun p hp => hx p (List.mem_cons_of_mem q hp)) hxtmp,
        hkeeps.untouched x (hx q (List.mem_cons_self ..))]
    · obtain ⟨hfile₁, hfull₁⟩ := hright₁ (hnot q (List.mem_cons_self ..) hqarch')
      obtain ⟨hfiles, hfull⟩ := hright fun p hp harch => by
        rw [hkeeps.matches_iff htmp]
        exact hnot p (List.mem_cons_of_mem q hp) harch
      refine ⟨fun p hp harch => ?_, ?_⟩
      · rcases List.mem_cons.mp hp with rfl | hp
        · rw [hframe _ (fun r hr => untouched_partFile (hname r hr).symm) (partFile_ne_tmp _), hfile₁]
        · exact hfiles p hp harch
      · rw [hfull, hfull₁]
        simp [hqarch']

theorem packArch_eq_self (fw : Name) {ps : List Part} (hps : ps.filter (·.arch) = []) (d : Dir)
    (archName : Name) : packArch fw ps d archName = some (d, archName) := by
  induction ps with
  | nil => rfl
  | cons q qs ih =>
    cases hq : q.arch with
    | true => simp [hq] at hps
    | false =>
      simp only [List.filter_cons, hq, Bool.false_eq_true, if_false] at hps
      simp [packArch, hq, ih hps]

theorem packArch_eq {fw : Name} (hne : fw ≠ tmpFull) {d : Dir} {a : Bytes} (hfw : d fw = some a)
    {ps : List Part} (hps : (ps.filter (·.arch)).length ≤ 1) (archName : Name) :
    packArch fw ps (touchEmpty tmpFull d) archName =
      some (Function.update d tmpFull (some (if ps.any (·.arch) then a else [])),
        ((ps.find? (·.arch)).map (·.name)).getD archName) := by
  induction ps with
  | nil => rfl
  | cons q qs ih =>
    cases hq : q.arch with
    | true =>
      have hqs : qs.filter (·.arch) = [] := by
        simp only [List.filter_cons, hq, if_true, List.length_cons] at hps
        exact List.eq_nil_of_length_eq_zero (by omega)
      simp [packArch, hq, catFile, touchEmpty, hne, hfw, packArch_eq_self fw hqs]
    | false =>
      simp only [List.filter_cons, hq, Bool.false_eq_true, if_false] at hps
      simp [packArch, hq, ih hps]

/-! ### Runs of the script -/

def archName (job : Job) : Name := ((job.parts.find? (·.arch)).map (·.name)).getD []

theorem archName_ne_nil_iff : job.archName ≠ [] ↔ ∃ p ∈ job.parts, p.arch ∧ p.name ≠ [] := by
  have hle := job.arch_le_one
  unfold archName
  generalize job.parts = ps at hle
  induction ps with
  | nil => simp
  | cons q qs ih =>
    cases hq : q.arch with
    | true =>
      have hqs : qs.filter (·.arch) = [] := by
        simp only [List.filter_cons, hq, if_true, List.length_cons] at hle
        exact List.eq_nil_of_length_eq_zero (by omega)
      rw [List.filter_eq_nil_iff] at hqs
      simp only [List.find?_cons, hq, Option.map_some, Option.getD_some, List.mem_cons,
        exists_eq_or_imp, true_and]
      refine ⟨Or.inl, ?_⟩
      rintro (h | ⟨p, hp, harch, -⟩)
      · exact h
      · exact absurd harch (hqs p hp)
    | false =>
      simp only [List.filter_cons, hq, Bool.false_eq_true, if_false] at hle
      simpa [hq] using ih hle

theorem mem_others {p : Part} : p ∈ job.others ↔ p ∈ job.parts ∧ p.arch = false := by
  simp [others]

/-- The full image before it is signed, for given contents of the part files. -/
def unsigned (job : Job) (a : Bytes) (c : Part → Bytes) : Bytes :=
  (if job.parts.any (·.arch) then a else []) ++ job.others.flatMap c

theorem matches_update_tmp (d : Dir) (t : Bytes) (p : Part) :
    job.Matches tools (Function.update d tmpFull (some t)) p ↔ job.Matches tools d p := by
  simp only [Matches, touchEmpty, Function.update_idem]

theorem content_update_tmp (hclear : job.Clear tools) {p : Part} (hp : p ∈ job.parts) (d : Dir)
    (t : Bytes) : job.content tools (Function.update d tmpFull (some t)) p = job.content tools d p :=
  content_congr (fun s hs => Function.update_of_ne (hclear.source_ne p hp s hs).1 _ _)
    (Function.update_of_ne (partFile_ne_tmp p) _ _) (matches_update_tmp d t p)

variable (tools) in
theorem finish_eq {fw : Name} (hne : fw ≠ tmpFull) {d : Dir} {a t : Bytes} (hfw : d fw = some a)
    (ht : d tmpFull = some t) (archName : Name) (cnt : Nat) :
    ∃ d', finish tools fw d archName cnt = some d' ∧
      d' fw = (if 0 < cnt then some ((tools.sign t).getD t)
        else if archName = [] then none else some a) ∧
      ∀ x, x ≠ fw → x ≠ tmpFull → (archName ≠ [] → x ≠ getImgName fw archName) → d' x = d x := by
  set d₁ := Function.update d tmpFull (some ((tools.sign t).getD t)) with hd₁
  have hsign : system tools [tmpFull] (fun x => (d x).bind tools.sign) d = d₁ := by
    rw [system_singleton, ht, Option.bind_some, hd₁]
    cases tools.sign t <;> rfl
  have hfw₁ : d₁ fw = some a := by simp [hd₁, hne, hfw]
  have ht₁ : d₁ tmpFull = some ((tools.sign t).getD t) := by simp [hd₁]
  unfold finish
  rw [hsign]
  by_cases hcnt : 0 < cnt
  · by_cases harch : archName = []
    · refine ⟨Function.update (Function.update (Function.update d₁ fw none) tmpFull none) fw
        (some ((tools.sign t).getD t)), ?_, by simp [hcnt], ?_⟩
      · simp [harch, hcnt, unlink, hfw₁, rename, hne.symm, ht₁]
      · intro x hxfw hxtmp _
        simp [hxfw, hxtmp, hd₁]
    · have himg := getImgName_ne_tmp fw archName
      refine ⟨Function.update (Function.update (Function.update (Function.update d₁ fw none)
        (getImgName fw archName) (some a)) tmpFull none) fw (some ((tools.sign t).getD t)), ?_,
        by simp [hcnt], ?_⟩
      · simp [harch, hcnt, hfw₁, rename, hne.symm, himg.symm, ht₁]
      · intro x hxfw hxtmp hx
        simp [hxfw, hxtmp, hx harch, hd₁]
  · by_cases harch : archName = []
    · refine ⟨Function.update (Function.update d₁ fw none) tmpFull none, ?_, ?_, ?_⟩
      · simp [harch, hcnt, unlink, hfw₁, hne.symm, ht₁]
      · simp [hcnt, harch, hne]
      · intro x hxfw hxtmp _
        simp [hxfw, hxtmp, hd₁]
    · refine ⟨Function.update d₁ tmpFull none, ?_, ?_, ?_⟩
      · simp [harch, hcnt, unlink, ht₁]
      · simp [hcnt, harch, hne, hfw₁]
      · intro x _ hxtmp _
        simp [hxtmp, hd₁]

theorem run_eq (hclear : job.Clear tools) {d : Dir} {a : Bytes} (hfw : d job.fwImageName = some a) :
    job.run tools d = (packParts tools job.fwImageName job.parts
        (Function.update d tmpFull (some (if job.parts.any (·.arch) then a else []))) 0).bind
      fun r => finish tools job.fwImageName r.1 job.archName r.2 := by
  simp only [run, pack, packArch_eq hclear.fwImageName_ne.1 hfw job.arch_le_one,
    Option.bind_eq_bind, Option.bind_some]
  rfl

theorem run_eq_none (hclear : job.Clear tools) {d : Dir} {a : Bytes}
    (hfw : d job.fwImageName = some a) {p : Part} (hp : p ∈ job.others)
    (hnone : job.content tools d p = none) : job.run tools d = none := by
  obtain ⟨hp, harch⟩ := mem_others.mp hp
  rw [run_eq hclear hfw, packParts_none hclear (fun _ h => h) job.nodup (by simp) 0 hp harch
    (by rw [content_update_tmp hclear hp, hnone])]
  rfl

theorem partFile_ne_archName {p : Part} (hp : p ∈ job.others) (harch : job.archName ≠ []) :
    job.partFile p ≠ getImgName job.fwImageName job.archName := by
  intro h
  obtain ⟨hp, hparch⟩ := mem_others.mp hp
  have hname : p.name = job.archName := getImgName_injective h
  unfold archName at harch hname
  cases hq : job.parts.find? (·.arch) with
  | none => simp [hq] at harch
  | some q =>
    have hqarch : q.arch = true := List.find?_some hq
    rw [hq] at hname
    have hpq : p = q := List.inj_on_of_nodup_map job.nodup hp (List.mem_of_find?_eq_some hq) hname
    simp [hpq, hqarch] at hparch

theorem run_eq_some (hclear : job.Clear tools) {d : Dir} {a : Bytes}
    (hfw : d job.fwImageName = some a) {c : Part → Bytes}
    (hc : ∀ p ∈ job.others, job.content tools d p = some (c p)) :
    ∃ d', job.run tools d = some d' ∧
      (job.others = [] → d' job.fwImageName = if job.archName = [] then none else some a) ∧
      ((∀ p ∈ job.others, ¬ job.Matches tools d p) →
        (∀ p ∈ job.others, d' (job.partFile p) = some (signed tools (c p))) ∧
        (job.others ≠ [] → d' job.fwImageName =
          some ((tools.sign (job.unsigned a c)).getD (job.unsigned a c)))) := by
  set t := if job.parts.any (·.arch) then a else [] with ht
  set d₁ := Function.update d tmpFull (some t) with hd₁
  have htmp₁ : d₁ tmpFull = some t := Function.update_self ..
  have hsome₁ : (d₁ tmpFull).isSome := by simp [htmp₁]
  obtain ⟨d₂, hrun, htmp₂, hframe, hright⟩ := packParts_some hclear (fun _ h => h)
    job.nodup hsome₁ 0 fun p hp harch => by
      rw [content_update_tmp hclear hp, hc p (mem_others.mpr ⟨hp, harch⟩)]
  have hfw₂ : d₂ job.fwImageName = some a := by
    rw [hframe _ (fun p hp => hclear.untouched_fwImageName hp) hclear.fwImageName_ne.1, hd₁,
      Function.update_of_ne hclear.fwImageName_ne.1, hfw]
  obtain ⟨t₂, ht₂⟩ := Option.isSome_iff_exists.mp htmp₂
  obtain ⟨d', hfinish, hfw', hframe'⟩ := finish_eq tools hclear.fwImageName_ne.1 hfw₂ ht₂
    job.archName (0 + job.others.length)
  refine ⟨d', ?_, fun hothers => ?_, fun hnot => ?_⟩
  · rw [run_eq hclear hfw, hrun]
    exact hfinish
  · rw [hfw', hothers]
    rfl
  · obtain ⟨hfiles, hfull⟩ := hright fun p hp harch => by
      rw [matches_update_tmp]
      exact hnot p (mem_others.mpr ⟨hp, harch⟩)
    have htunsigned : t₂ = job.unsigned a c := by
      rw [htmp₁, ht₂] at hfull
      exact Option.some.inj hfull
    refine ⟨fun p hp => ?_, fun hothers => ?_⟩
    · have hp' := mem_others.mp hp
      rw [hframe' (job.partFile p) (getImgName_ne_fw _ _) (partFile_ne_tmp p)
        (partFile_ne_archName hp), hfiles p hp'.1 hp'.2]
    · rw [hfw', if_pos (by simpa [List.length_pos_iff] using hothers), htunsigned]

theorem content_eq_none {d : Dir} {p : Part} : job.content tools d p = none ↔
    (wrapped tools d p = none ∨ job.Matches tools d p) ∧ d (job.partFile p) = none := by
  unfold content
  by_cases hp : job.Matches tools d p
  · simp [hp]
  · simp [hp, Option.or_eq_none_iff]

/-! ### Other part files of an earlier build -/

section stale
variable {d e : Dir} (h : ∀ x, (∀ p ∈ job.others, x ≠ job.partFile p) → e x = d x)

include h

theorem wrapped_congr (hclear : job.Clear tools) {p : Part} (hp : p ∈ job.others) :
    wrapped tools e p = wrapped tools d p := by
  unfold wrapped
  cases hs : p.source with
  | none => rfl
  | some s =>
    rw [Option.bind_some, Option.bind_some,
      h s fun q _ => hclear.ne_partFile (mem_others.mp hp).1 s hs q]

theorem matches_congr (p : Part) : job.Matches tools e p ↔ job.Matches tools d p := by
  have hmatched : ∀ c, touchEmpty tmpFull e (matchedName job.fwImageName c) =
      touchEmpty tmpFull d (matchedName job.fwImageName c) := by
    intro c
    by_cases hc : matchedName job.fwImageName c = tmpFull
    · simp [touchEmpty, hc]
    · simp only [touchEmpty, Function.update_of_ne hc]
      exact h _ fun q _ => (partFile_ne_matchedName q c).symm
  simp only [Matches, hmatched]

theorem fullImage_congr (hclear : job.Clear tools) :
    job.fullImage tools e = job.fullImage tools d := by
  unfold fullImage
  rw [h _ fun p _ => (getImgName_ne_fw _ _).symm]
  congr 1
  exact List.flatMap_congr fun p hp => by rw [wrapped_congr h hclear hp]

end stale

theorem fullImage_eq_unsigned {d : Dir} {a : Bytes} (hfw : d job.fwImageName = some a)
    {c : Part → Bytes} (hc : ∀ p ∈ job.others, wrapped tools d p = some (c p)) :
    job.fullImage tools d = job.unsigned a c := by
  unfold fullImage unsigned
  rw [hfw, Option.getD_some]
  congr 1
  exact List.flatMap_congr fun p hp => by rw [hc p hp, Option.getD_some]

/-- Every part has its wrapped form, which is signed, and no pattern matches. -/
def PartsRight (job : Job) (tools : Tools) (d : Dir) : Prop :=
  ∀ p ∈ job.others, ¬ job.Matches tools d p ∧
    ∃ w, wrapped tools d p = some w ∧ (tools.signfe w).isSome

/-- A build whose tools all succeed leaves the files of the composition behind. -/
theorem run_of_tools (hclear : job.Clear tools) {d : Dir} (hfw : (d job.fwImageName).isSome)
    (hparts : job.PartsRight tools d)
    (hsign : job.others ≠ [] → (tools.sign (job.fullImage tools d)).isSome) :
    ∃ d', job.run tools d = some d' ∧
      (∀ p ∈ job.others, d' (job.partFile p) = (wrapped tools d p).bind tools.signfe) ∧
      d' job.fwImageName = if job.others ≠ [] then tools.sign (job.fullImage tools d)
        else if job.archName = [] then none else d job.fwImageName := by
  obtain ⟨a, ha⟩ := Option.isSome_iff_exists.mp hfw
  have hc : ∀ p ∈ job.others, wrapped tools d p = some ((wrapped tools d p).getD []) := by
    intro p hp
    obtain ⟨-, w, hw, -⟩ := hparts p hp
    simp [hw]
  obtain ⟨d', hrun, harch, hright⟩ := run_eq_some hclear ha fun p hp => by
    rw [content, if_neg (hparts p hp).1, hc p hp, Option.some_or]
  obtain ⟨hfiles, hfw'⟩ := hright fun p hp => (hparts p hp).1
  refine ⟨d', hrun, fun p hp => ?_, ?_⟩
  · obtain ⟨-, w, hw, hsigned⟩ := hparts p hp
    obtain ⟨y, hy⟩ := Option.isSome_iff_exists.mp hsigned
    simp [hfiles p hp, hw, signed, hy]
  · by_cases hothers : job.others = []
    · rw [harch hothers, if_neg (not_not_intro hothers), ha]
    · obtain ⟨y, hy⟩ := Option.isSome_iff_exists.mp (hsign hothers)
      rw [hfw' hothers, if_pos hothers, ← fullImage_eq_unsigned ha hc, hy, Option.getD_some]

theorem composed_of_tools (hclear : job.Clear tools) {d d' : Dir}
    (hfw : (d job.fwImageName).isSome) (hparts : job.PartsRight tools d)
    (hsign : job.others ≠ [] → (tools.sign (job.fullImage tools d)).isSome)
    (harch : job.others = [] → job.archName ≠ []) (hrun : job.run tools d = some d') :
    job.Composed tools d d' := by
  obtain ⟨d₁, hrun₁, hfiles, hfw'⟩ := run_of_tools hclear hfw hparts hsign
  obtain rfl : d₁ = d' := by simpa [hrun₁] using hrun
  refine ⟨fun hothers => ?_, fun p hp => ?_, fun hothers _ => ?_, ?_, fun e he => ?_⟩
  · obtain ⟨y, hy⟩ := Option.isSome_iff_exists.mp (hsign hothers)
    exact ⟨y, hy, by rw [hfw', if_pos hothers, hy]⟩
  · obtain ⟨-, w, hw, hsigned⟩ := hparts p hp
    obtain ⟨y, hy⟩ := Option.isSome_iff_exists.mp hsigned
    exact ⟨w, y, hw, hy, by rw [hfiles p hp, hw, Option.bind_some, hy]⟩
  · simp [hfw', hothers, harch hothers]
  · rw [hfw']
    by_cases hothers : job.others = []
    · simpa [hothers, harch hothers] using hfw
    · simpa [hothers] using hsign hothers
  · have hfwe : e job.fwImageName = d job.fwImageName := he _ fun p _ => (getImgName_ne_fw _ _).symm
    obtain ⟨e', hrune, hfilese, hfwe'⟩ := run_of_tools hclear (hfwe ▸ hfw)
      (fun p hp => by simpa [wrapped_congr he hclear hp, matches_congr he] using hparts p hp)
      (by simpa [fullImage_congr he hclear] using hsign)
    refine ⟨e', hrune, ?_, fun p hp => ?_⟩
    · rw [hfwe', hfw', fullImage_congr he hclear, hfwe]
    · rw [hfilese p hp, hfiles p hp, wrapped_congr he hclear hp]

/-- Where a pattern matches, a stale part file is all that lets the script succeed. -/
theorem not_composed_of_matches (hclear : job.Clear tools) {d d' : Dir}
    (hfw : (d job.fwImageName).isSome) {p : Part} (hp : p ∈ job.others)
    (hmatches : job.Matches tools d p) : ¬ job.Composed tools d d' := by
  intro hcomposed
  obtain ⟨a, ha⟩ := Option.isSome_iff_exists.mp hfw
  set e := Function.update d (job.partFile p) none with he
  have hed : ∀ x, (∀ q ∈ job.others, x ≠ job.partFile q) → e x = d x := fun x hx =>
    Function.update_of_ne (hx p hp) _ _
  obtain ⟨e', hrun, -⟩ := hcomposed.stale e hed
  have hnone : job.content tools e p = none :=
    content_eq_none.mpr ⟨.inr ((matches_congr hed p).mpr hmatches), by simp [he]⟩
  have hfwe : e job.fwImageName = some a := by
    rw [hed _ fun q _ => (getImgName_ne_fw _ _).symm, ha]
  rw [run_eq_none hclear hfwe hp hnone] at hrun
  exact absurd hrun (by simp)

/-- `pack.py` exits with success with the composed image exactly when every tool it calls does its
work on the files it is meant for; otherwise it may only fail, for want of a part file. -/
theorem run_composed_iff (job : Job) (tools : Tools) (hclear : job.Clear tools) (d : Dir)
    (hfw : (d job.fwImageName).isSome) :
    (∀ d', job.run tools d = some d' → job.Composed tools d d') ↔
      (∃ p ∈ job.others, (wrapped tools d p = none ∨ job.Matches tools d p) ∧
        d (job.partFile p) = none) ∨
      (job.PartsRight tools d ∧
        (job.others ≠ [] → (tools.sign (job.fullImage tools d)).isSome) ∧
        (job.others = [] → ∃ p ∈ job.parts, p.arch ∧ p.name ≠ [])) := by
  rw [← archName_ne_nil_iff]
  obtain ⟨a, ha⟩ := Option.isSome_iff_exists.mp hfw
  constructor
  · intro h
    refine or_iff_not_imp_left.mpr fun hnone => ?_
    have hc : ∀ p ∈ job.others,
        job.content tools d p = some ((job.content tools d p).getD []) := by
      intro p hp
      cases hp' : job.content tools d p with
      | none => exact absurd ⟨p, hp, content_eq_none.mp hp'⟩ hnone
      | some c => rfl
    obtain ⟨d', hrun, hfw', -⟩ := run_eq_some hclear ha hc
    have hcomposed := h d' hrun
    refine ⟨fun p hp => ⟨fun hmatches => ?_, ?_⟩, fun hothers => ?_, fun hothers harch => ?_⟩
    · exact not_composed_of_matches hclear hfw hp hmatches hcomposed
    · obtain ⟨w, y, hw, hy, -⟩ := hcomposed.part p hp
      exact ⟨w, hw, by simp [hy]⟩
    · obtain ⟨y, hy, -⟩ := hcomposed.image hothers
      simp [hy]
    · have hsome := hcomposed.isSome
      simp [hfw' hothers, harch] at hsome
  · rintro (⟨p, hp, hnone⟩ | ⟨hparts, hsign, harch⟩) d' hrun
    · rw [run_eq_none hclear ha hp (content_eq_none.mpr hnone)] at hrun
      exact absurd hrun (by simp)
    · exact composed_of_tools hclear hfw hparts hsign harch hrun

def kernelPart : Part := ⟨"kernel".toList, false, some "uImage".toList, none⟩

/-- One part, `kernel`, next to the architecture image. -/
def kernelJob : Job where
  fwImageName := "fw.bin".toList
  parts := [⟨"arch".toList, true, none, none⟩, kernelPart]
  nodup := by decide
  arch_le_one := by decide

def prefixTools : Tools where
  dlinkhdr content _ := some (1 :: content)
  signfe content := some (2 :: content)
  sign content := some (3 :: content)
  bracket _ name := name
  several _ _ _ content := content

def kernelDir : Dir := fun x =>
  if x = "fw.bin".toList then some [10] else if x = "uImage".toList then some [20] else none

theorem others_kernelJob : ∀ p ∈ kernelJob.others, p = kernelPart := fun _ hp =>
  List.mem_singleton.mp hp

theorem clear_kernelJob : kernelJob.Clear prefixTools where
  plain_fwImageName := by decide
  plain_name := by decide
  plain_source := by decide
  fwImageName_ne := by decide
  source_ne := by
    have hscratch : ∀ q ∈ kernelJob.parts, ¬ kernelJob.Scratch prefixTools q "uImage".toList := by
      decide
    intro p hp s hs
    obtain rfl : s = "uImage".toList := by
      rcases List.mem_cons.mp hp with rfl | hp
      · simp at hs
      · obtain rfl := List.mem_singleton.mp hp
        exact (Option.mem_some_iff.mp hs).symm
    exact ⟨by decide, hscratch⟩

theorem run_composed_kernel : ∃ d', kernelJob.run prefixTools kernelDir = some d' ∧
    kernelJob.Composed prefixTools kernelDir d' := by
  have hparts : kernelJob.PartsRight prefixTools kernelDir := by
    intro p hp
    rw [others_kernelJob p hp]
    exact ⟨by decide, [1, 20], rfl, rfl⟩
  obtain ⟨d', hrun, -⟩ := run_of_tools clear_kernelJob rfl hparts fun _ => rfl
  refine ⟨d', hrun,
    (run_composed_iff kernelJob prefixTools clear_kernelJob kernelDir rfl).mpr (.inr ?_) d' hrun⟩
  exact ⟨hparts, fun _ => rfl, fun h => absurd h (by decide)⟩

/-- The kernel is not there, but the part file of the build before is. -/
def staleDir : Dir := fun x =>
  if x = "fw.bin".toList then some [10] else if x = "fw[kernel].bin".toList then some [30] else none

theorem not_run_composed : ¬ ∀ (job : Job) (tools : Tools) (d : Dir), (d job.fwImageName).isSome →
    ∀ d', job.run tools d = some d' → job.Composed tools d d' := by
  intro h
  have hcontent : ∀ p ∈ kernelJob.others,
      kernelJob.content prefixTools staleDir p = some [30] := fun p hp => by
    rw [others_kernelJob p hp]
    rfl
  have hfw : staleDir kernelJob.fwImageName = some [10] := rfl
  obtain ⟨d', hrun, -⟩ := run_eq_some clear_kernelJob hfw hcontent
  obtain ⟨w, y, hw, -⟩ := (h kernelJob prefixTools staleDir rfl d' hrun).part kernelPart
    (List.mem_singleton_self _)
  have hnone : wrapped prefixTools staleDir kernelPart = none := rfl
  simp [hnone] at hw

end Job

end Dir842.Pack
