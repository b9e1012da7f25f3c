import Dir842.Profile.UpdateLine
import Mathlib.Data.List.DropRight

/-!
# Updates of a profile (`update_profile` in `fixup-profiles.lua`)

The tool appends a line for each option and leaves the rest to the rule that the last line wins. The
script that runs afterwards is not part of this.
-/

namespace Dir842.Profile

open Kconfig

variable {types : Text → Option SymType}

/-- The entries in the order in which `pairs` visits them. -/
structure Updates (types : Text → Option SymType) where
  list : List (Update types)
  nodup : (list.map fun u => u.name.text).Nodup

def Updates.tail (us : Updates types) : Updates types where
  list := us.list.tail
  nodup := by
    rw [List.map_tail]
    exact us.nodup.tail

/-- The lines are appended to what the file holds. -/
def updateProfile (profile : Text) (us : Updates types) : Text :=
  profile ++ unlines (us.list.map Update.line)

/-- The file ends with a line end, or is empty. -/
def Terminated (profile : Text) : Prop := ∀ c ∈ profile.getLast?, c = '\n'

/-- Reading the file again gives the updated values and the previous ones of all other options. -/
structure RoundTrip (profile : Text) (us : Updates types) : Prop where
  parse_updated : ∀ u ∈ us.list,
    parseProfile (updateProfile profile us) u.name.text = some u.value
  parse_other : ∀ k, (∀ u ∈ us.list, u.name.text ≠ k) →
    parseProfile (updateProfile profile us) k = parseProfile profile k
  read_updated : ∀ u ∈ us.list,
    Same u.type (confReadSimple types (updateProfile profile us) u.name.text) (some u.value)
  read_other : ∀ k, (∀ u ∈ us.list, u.name.text ≠ k) →
    confReadSimple types (updateProfile profile us) k = confReadSimple types profile k

/-- Although the first line joins the last one of the file, the two readers have the first update and
what they had for the options that nothing updates. -/
structure Joined (profile : Text) (us : Updates types) (u : Update types) : Prop where
  parse_first : parseProfile (profile ++ unlines [u.line]) u.name.text = some u.value
  parse_other : ∀ k, (∀ v ∈ us.list, v.name.text ≠ k) →
    parseProfile (profile ++ unlines [u.line]) k = parseProfile profile k
  read_first :
    Same u.type (confReadSimple types (profile ++ unlines [u.line]) u.name.text) (some u.value)
  read_other : ∀ k, (∀ v ∈ us.list, v.name.text ≠ k) →
    confReadSimple types (profile ++ unlines [u.line]) k = confReadSimple types profile k

def Updates.Has (us : Updates types) (k : Text) : Prop := ∃ u ∈ us.list, u.name.text = k

/-- The file gives the value of the update to both readers. -/
structure Given (file : Text) (u : Update types) : Prop where
  parse : parseProfile file u.name.text = some u.value
  read : Same u.type (confReadSimple types file u.name.text) (some u.value)

/-- A value that `parse_profile` reads alike when the line goes on: its quotes end it, or it is none. -/
def Closed (p : Text) : Prop :=
  (p.head? = some '"' ∧ '"' ∈ p.tail) ∨ (p.head? ≠ some '"' ∧ parseValue p = none)

/-- The unfinished lines that lose nothing when the line of the first update is joined to them,
after the lines in `file`. -/
inductive Joins (file : Text) (us : Updates types) (u : Update types) : Text → Prop
  /-- A comment, or what says that an option is not set: both readers lose the update, and
  `parse_profile` the option. -/
  | hash {t : Text} :
    parseProfile file u.name.text = some u.value →
    (∀ n, matchUnset ('#' :: t) = some n →
      us.Has n ∨ parseProfile file n = some (.bool false)) →
    (readUnset types ('#' :: t ++ u.line ++ ['\n']) = some u.name.text → u.value = .bool false) →
    (readUnset types ('#' :: t ++ u.line ++ ['\n']) ≠ some u.name.text →
      Same u.type (confReadSimple types file u.name.text) (some u.value)) →
    (∀ n, readUnset types ('#' :: t ++ u.line ++ ['\n']) = some n →
      readUnset types ('#' :: t) = some n ∨ us.Has n ∨
        confReadSimple types file n = some (.tri .no)) →
    Joins file us u ('#' :: t)
  /-- An assignment of another option: both readers lose the update. -/
  | other {name p : Text} : '=' ∉ name → name.head? ≠ some '#' → name ≠ u.name.text →
    Given file u →
    us.Has name ∨ (KeyName name ∧ name ≠ [] → Closed p) ∧
      (∀ type, types name = some type →
        (confSetSymVal type (p ++ u.line)).or (confReadSimple types file name) =
          (confSetSymVal type p).or (confReadSimple types file name)) →
    Joins file us u (name ++ '=' :: p)
  /-- A string for the option of the update, which its quotes or those of the update end. -/
  | same {q s t : Text} : KeyName u.name.text → u.type = .string → u.value = .str s →
    q ++ u.line = s ++ '"' :: t → s ≠ [] → '"' ∉ s → '\n' ∉ s →
    ('\\' ∉ s ∨ (unquote (q ++ u.line) = none ∧
      confReadSimple types file u.name.text = some (.val s))) →
    Joins file us u (u.name.text ++ '=' :: '"' :: q)
  /-- Anything else: an assignment goes to the option with the longer name. -/
  | fragment {l : Text} : '=' ∉ l → l.head? ≠ some '#' → Given file u →
    u.value = .bool false ∨ us.Has (l ++ u.name.text) ∨
      (KeyName l → parseProfile file (l ++ u.name.text) = some u.value) ∧
      (∀ type d, types (l ++ u.name.text) = some type → readUpdate type u.value = some d →
        confReadSimple types file (l ++ u.name.text) = some d) →
    Joins file us u l

/-- The whole lines of a file. -/
def finished (profile : Text) : Text := profile.rdropWhile (· ≠ '\n')

/-- What is behind the last line end. -/
def unfinished (profile : Text) : Text := profile.rtakeWhile (· ≠ '\n')

def CarriedAll (profile : Text) (us : Updates types) : Prop :=
  ∀ u ∈ us.list, KeyName u.name.text ∧
    Carried u.type (confReadSimple types profile u.name.text) u.value

/-! ### Files with appended lines -/

section Append

variable {ls : List Text} {us : List (Update types)} {u : Update types} {k : Text}

theorem not_mem_of_mem_lines (hus : ∀ u ∈ us, u.value.OneLine) :
    ∀ l ∈ us.map Update.line, '\n' ∉ l := by
  rintro l hl
  obtain ⟨u, hu, rfl⟩ := List.mem_map.mp hl
  exact not_mem_line u (hus u hu)

theorem filter_lines (us : List (Update types)) :
    (us.map Update.line).filter (· ≠ []) = us.map Update.line := by
  refine List.filter_eq_self.mpr fun l hl => ?_
  obtain ⟨u, -, rfl⟩ := List.mem_map.mp hl
  simpa using line_ne_nil u

variable (hls : ∀ l ∈ ls, '\n' ∉ l) (hus : ∀ u ∈ us, u.value.OneLine)
include hls hus

theorem parseProfile_append (k : Text) :
    parseProfile (unlines ls ++ unlines (us.map Update.line)) k =
      (LastWins.writes (us.map fun u => parseLine u.line) k).getLast?.getD
        (parseProfile (unlines ls) k) := by
  have hlines := not_mem_of_mem_lines hus
  rw [parseProfile, gmatchLines_unlines hls, gmatchLines_unlines_self hlines, filter_lines,
    List.map_append, LastWins.foldl_write_append, List.map_map, parseProfile,
    gmatchLines_unlines_self hls]
  rfl

theorem parseProfile_append_of_mem (hnodup : (us.map fun u => u.name.text).Nodup) (hu : u ∈ us)
    (hkey : KeyName u.name.text) :
    parseProfile (unlines ls ++ unlines (us.map Update.line)) u.name.text =
      parsedUpdate u.value := by
  rw [parseProfile_append hls hus, LastWins.writes_map_of_mem fst_of_parseLine hnodup hu,
    parseLine_line, if_pos hkey]
  rfl

theorem parseProfile_append_of_not_mem (hk : ∀ u ∈ us, u.name.text ≠ k) :
    parseProfile (unlines ls ++ unlines (us.map Update.line)) k = parseProfile (unlines ls) k := by
  rw [parseProfile_append hls hus, LastWins.writes_map_of_not_mem fst_of_parseLine hk]
  rfl

theorem confReadSimple_append (k : Text) :
    confReadSimple types (unlines ls ++ unlines (us.map Update.line)) k =
      (LastWins.writes (us.map Update.reads) k).getLast?.getD
        (confReadSimple types (unlines ls) k) := by
  have hlines := not_mem_of_mem_lines hus
  have hread : ((us.map Update.line).map (· ++ ['\n'])).map (fun line =>
      (confReadLine types line).map fun r => (r.1, some r.2)) = us.map Update.reads := by
    rw [List.map_map, List.map_map]
    refine List.map_congr_left fun u hu => ?_
    simp only [Function.comp_apply, confReadLine_line u (hus u hu), Option.map_map]
    rfl
  rw [confReadSimple, compatGetline_unlines hls, compatGetline_unlines_self hlines,
    List.map_append, LastWins.foldl_write_append, hread, confReadSimple,
    compatGetline_unlines_self hls]

theorem confReadSimple_append_of_mem (hnodup : (us.map fun u => u.name.text).Nodup)
    (hu : u ∈ us) :
    confReadSimple types (unlines ls ++ unlines (us.map Update.line)) u.name.text =
      (readUpdate u.type u.value).or (confReadSimple types (unlines ls) u.name.text) := by
  rw [confReadSimple_append hls hus, LastWins.writes_map_of_mem fst_of_reads hnodup hu]
  unfold Update.reads
  cases readUpdate u.type u.value with
  | none => rfl
  | some d => rfl

theorem confReadSimple_append_of_not_mem (hk : ∀ u ∈ us, u.name.text ≠ k) :
    confReadSimple types (unlines ls ++ unlines (us.map Update.line)) k =
      confReadSimple types (unlines ls) k := by
  rw [confReadSimple_append hls hus, LastWins.writes_map_of_not_mem fst_of_reads hk]
  rfl

end Append

/-! ### Files that end with a line end -/

theorem roundTrip_unlines_iff {ls : List Text} (hls : ∀ l ∈ ls, '\n' ∉ l) (us : Updates types) :
    RoundTrip (unlines ls) us ↔ CarriedAll (unlines ls) us := by
  constructor
  · rintro h u hu
    have hus : ∀ u ∈ us.list, u.value.OneLine := fun u hu =>
      oneLine_of_parseProfile (h.parse_updated u hu)
    have hkey := keyName_of_parseProfile (h.parse_updated u hu)
    have hparse := h.parse_updated u hu
    have hread := h.read_updated u hu
    unfold updateProfile at hparse hread
    rw [parseProfile_append_of_mem hls hus us.nodup hu hkey] at hparse
    rw [confReadSimple_append_of_mem hls hus us.nodup hu] at hread
    exact ⟨hkey, (carried_iff u fun d hd => ofType_of_confReadSimple u.types_name hd).mp
      ⟨hus u hu, hparse, hread⟩⟩
  · intro h
    have hcarried : ∀ u ∈ us.list, u.value.OneLine ∧ parsedUpdate u.value = some u.value ∧
        Same u.type ((readUpdate u.type u.value).or
          (confReadSimple types (unlines ls) u.name.text)) (some u.value) := fun u hu =>
      (carried_iff u fun d hd => ofType_of_confReadSimple u.types_name hd).mpr (h u hu).2
    have hus : ∀ u ∈ us.list, u.value.OneLine := fun u hu => (hcarried u hu).1
    exact
      { parse_updated := fun u hu =>
          (parseProfile_append_of_mem hls hus us.nodup hu (h u hu).1).trans (hcarried u hu).2.1
        parse_other := fun k hk => parseProfile_append_of_not_mem hls hus hk
        read_updated := fun u hu => by
          rw [updateProfile, confReadSimple_append_of_mem hls hus us.nodup hu]
          exact (hcarried u hu).2.2
        read_other := fun k hk => confReadSimple_append_of_not_mem hls hus hk }

/-! ### Files that end within a line -/

theorem not_mem_concat {ls : List Text} (hls : ∀ l ∈ ls, '\n' ∉ l) {l : Text} (hl : '\n' ∉ l) :
    ∀ t ∈ ls ++ [l], '\n' ∉ t := by
  rintro t ht
  rcases List.mem_append.mp ht with ht | ht
  · exact hls t ht
  · rwa [List.mem_singleton.mp ht]

theorem parseProfile_concat {ls : List Text} (hls : ∀ l ∈ ls, '\n' ∉ l) {l : Text} (hl : '\n' ∉ l)
    (hne : l ≠ []) :
    parseProfile (unlines (ls ++ [l])) = LastWins.write (parseProfile (unlines ls)) (parseLine l) := by
  rw [parseProfile, gmatchLines_unlines_self (not_mem_concat hls hl), List.filter_append, List.map_append,
    List.foldl_append, parseProfile, gmatchLines_unlines_self hls]
  simp [hne]

theorem parseProfile_unterminated {ls : List Text} (hls : ∀ l ∈ ls, '\n' ∉ l) {l : Text}
    (hl : '\n' ∉ l) (hne : l ≠ []) :
    parseProfile (unlines ls ++ l) = LastWins.write (parseProfile (unlines ls)) (parseLine l) := by
  have hget : gmatchLines l = [l] := by
    simp [gmatchLines, List.splitOn_eq_singleton hl, hne]
  rw [parseProfile, gmatchLines_unlines hls, hget, List.map_append, List.foldl_append, parseProfile,
    gmatchLines_unlines_self hls]
  rfl

theorem confReadSimple_concat {ls : List Text} (hls : ∀ l ∈ ls, '\n' ∉ l) {l : Text}
    (hl : '\n' ∉ l) :
    confReadSimple types (unlines (ls ++ [l])) =
      LastWins.write (confReadSimple types (unlines ls))
        ((confReadLine types (l ++ ['\n'])).map fun r => (r.1, some r.2)) := by
  rw [confReadSimple, compatGetline_unlines_self (not_mem_concat hls hl), List.map_append, List.map_append,
    List.foldl_append, confReadSimple, compatGetline_unlines_self hls]
  rfl

theorem confReadSimple_unterminated {ls : List Text} (hls : ∀ l ∈ ls, '\n' ∉ l) {l : Text}
    (hl : '\n' ∉ l) (hne : l ≠ []) :
    confReadSimple types (unlines ls ++ l) =
      LastWins.write (confReadSimple types (unlines ls))
        ((confReadLine types l).map fun r => (r.1, some r.2)) := by
  have hget : compatGetline l = [l] := compatGetline_of_not_mem hl hne
  rw [confReadSimple, compatGetline_unlines hls, hget, List.map_append, List.foldl_append,
    confReadSimple, compatGetline_unlines_self hls]
  rfl

/-- A last line without its end. -/
theorem exists_lines (s : Text) :
    ∃ ls l, s = unlines ls ++ l ∧ (∀ t ∈ ls, '\n' ∉ t) ∧ '\n' ∉ l := by
  induction s with
  | nil => exact ⟨[], [], rfl, by simp, by simp⟩
  | cons c s ih =>
    obtain ⟨ls, l, rfl, hls, hl⟩ := ih
    by_cases hc : c = '\n'
    · subst hc
      exact ⟨[] :: ls, l, by simp [unlines], by simpa using hls, hl⟩
    · cases ls with
      | nil => exact ⟨[], c :: l, rfl, by simp, by simpa using ⟨Ne.symm hc, hl⟩⟩
      | cons t ls =>
        obtain ⟨ht, hls⟩ := List.forall_mem_cons.mp hls
        refine ⟨(c :: t) :: ls, l, by simp [unlines], ?_, hl⟩
        rw [List.forall_mem_cons]
        exact ⟨by simpa using ⟨Ne.symm hc, ht⟩, hls⟩

theorem terminated_iff (ls : List Text) {l : Text} (hl : '\n' ∉ l) :
    Terminated (unlines ls ++ l) ↔ l = [] := by
  unfold Terminated
  constructor
  · intro h
    rcases List.eq_nil_or_concat l with hnil | ⟨t, c, rfl⟩
    · exact hnil
    · have hc := h c (by simp [← List.append_assoc])
      simp [hc] at hl
  · rintro rfl
    rcases List.eq_nil_or_concat ls with rfl | ⟨ls, t, rfl⟩
    · simp [unlines]
    · simp [unlines]

theorem span_unlines (ls : List Text) {l : Text} (hl : '\n' ∉ l) :
    (unlines ls ++ l).reverse.span (· ≠ '\n') = (l.reverse, (unlines ls).reverse) := by
  rw [List.reverse_append]
  refine Scan.span_append (fun c hc => ?_) fun c hc => ?_
  · exact decide_eq_true fun h => hl (h ▸ List.mem_reverse.mp hc)
  · rw [List.head?_reverse] at hc
    have hend := (terminated_iff ls (l := []) List.not_mem_nil).mpr rfl c (by rwa [List.append_nil])
    exact decide_eq_false (not_not_intro hend)

theorem finished_eq (ls : List Text) {l : Text} (hl : '\n' ∉ l) :
    finished (unlines ls ++ l) = unlines ls := by
  have hspan := congrArg Prod.snd (span_unlines ls hl)
  simp only [List.span_eq_takeWhile_dropWhile] at hspan
  rw [finished, List.rdropWhile, hspan, List.reverse_reverse]

theorem unfinished_eq (ls : List Text) {l : Text} (hl : '\n' ∉ l) :
    unfinished (unlines ls ++ l) = l := by
  have hspan := congrArg Prod.fst (span_unlines ls hl)
  simp only [List.span_eq_takeWhile_dropWhile] at hspan
  rw [unfinished, List.rtakeWhile, hspan, List.reverse_reverse]

theorem unlines_joined (ls : List Text) (l : Text) (u : Update types) :
    unlines ls ++ l ++ unlines [u.line] = unlines (ls ++ [l ++ u.line]) := by
  simp [unlines]

theorem updateProfile_eq_tail {us : Updates types} {u : Update types} (hu : us.list.head? = some u)
    (profile : Text) :
    updateProfile profile us = updateProfile (profile ++ unlines [u.line]) us.tail := by
  obtain ⟨rest, hrest⟩ : ∃ rest, us.list = u :: rest := List.head?_eq_some_iff.mp hu
  simp [updateProfile, Updates.tail, hrest, unlines]

theorem mem_list_iff {us : Updates types} {u : Update types} (hu : us.list.head? = some u)
    {v : Update types} : v ∈ us.list ↔ v = u ∨ v ∈ us.tail.list := by
  obtain ⟨rest, hrest⟩ : ∃ rest, us.list = u :: rest := List.head?_eq_some_iff.mp hu
  show v ∈ us.list ↔ v = u ∨ v ∈ us.list.tail
  rw [hrest, List.mem_cons, List.tail_cons]

theorem ne_of_mem_tail {us : Updates types} {u : Update types} (hu : us.list.head? = some u)
    {v : Update types} (hv : v ∈ us.tail.list) : v.name.text ≠ u.name.text := by
  obtain ⟨rest, hrest⟩ : ∃ rest, us.list = u :: rest := List.head?_eq_some_iff.mp hu
  have hrest' : us.tail.list = rest := congrArg List.tail hrest
  have hnodup := us.nodup
  rw [hrest, List.map_cons, List.nodup_cons, ← hrest'] at hnodup
  intro heq
  exact hnodup.1 (heq ▸ List.mem_map_of_mem hv)

theorem forall_mem_tail {us : Updates types} {k : Text}
    (hk : ∀ v ∈ us.list, v.name.text ≠ k) : ∀ v ∈ us.tail.list, v.name.text ≠ k :=
  fun v hv => hk v (List.mem_of_mem_tail hv)

section Glued
variable {ls : List Text} (hls : ∀ l ∈ ls, '\n' ∉ l) {l : Text} (hl : '\n' ∉ l)
  {us : Updates types} {u : Update types} (hu : us.list.head? = some u)
include hls hl hu

/-- What the first line does not touch is read as if the other updates were not there. -/
theorem read_joined_eq (hus : ∀ v ∈ us.list, v.value.OneLine) {k : Text}
    (hk : ∀ v ∈ us.tail.list, v.name.text ≠ k) :
    parseProfile (updateProfile (unlines ls ++ l) us) k =
        parseProfile (unlines ls ++ l ++ unlines [u.line]) k ∧
      confReadSimple types (updateProfile (unlines ls ++ l) us) k =
        confReadSimple types (unlines ls ++ l ++ unlines [u.line]) k := by
  have hglued : '\n' ∉ l ++ u.line := by
    simpa using ⟨hl, not_mem_line u (hus u ((mem_list_iff hu).mpr (.inl rfl)))⟩
  have htail : ∀ v ∈ us.tail.list, v.value.OneLine := fun v hv => hus v (List.mem_of_mem_tail hv)
  rw [updateProfile_eq_tail hu, unlines_joined]
  exact ⟨parseProfile_append_of_not_mem (not_mem_concat hls hglued) htail hk,
    confReadSimple_append_of_not_mem (not_mem_concat hls hglued) htail hk⟩

theorem joined_of_roundTrip (h : RoundTrip (unlines ls ++ l) us) :
    Joined (unlines ls ++ l) us u := by
  have hus : ∀ v ∈ us.list, v.value.OneLine := fun v hv =>
    oneLine_of_parseProfile (h.parse_updated v hv)
  have hfirst : u ∈ us.list := (mem_list_iff hu).mpr (.inl rfl)
  have hself := read_joined_eq hls hl hu hus fun v => ne_of_mem_tail hu
  have hothers : ∀ k, (∀ v ∈ us.list, v.name.text ≠ k) → _ := fun k hk =>
    read_joined_eq hls hl hu hus (forall_mem_tail hk)
  exact
    { parse_first := hself.1.symm.trans (h.parse_updated u hfirst)
      parse_other := fun k hk => (hothers k hk).1.symm.trans (h.parse_other k hk)
      read_first := hself.2 ▸ h.read_updated u hfirst
      read_other := fun k hk => (hothers k hk).2.symm.trans (h.read_other k hk) }

theorem roundTrip_tail (h : RoundTrip (unlines ls ++ l) us) :
    RoundTrip (unlines ls ++ l ++ unlines [u.line]) us.tail := by
  have hfile := updateProfile_eq_tail hu (unlines ls ++ l)
  have hus : ∀ v ∈ us.list, v.value.OneLine := fun v hv =>
    oneLine_of_parseProfile (h.parse_updated v hv)
  exact
    { parse_updated := fun v hv => hfile ▸ h.parse_updated v (List.mem_of_mem_tail hv)
      parse_other := fun k hk => hfile ▸ (read_joined_eq hls hl hu hus hk).1
      read_updated := fun v hv => hfile ▸ h.read_updated v (List.mem_of_mem_tail hv)
      read_other := fun k hk => hfile ▸ (read_joined_eq hls hl hu hus hk).2 }

omit hls hl in
theorem roundTrip_of_joined (hjoined : Joined (unlines ls ++ l) us u)
    (h : RoundTrip (unlines ls ++ l ++ unlines [u.line]) us.tail) :
    RoundTrip (unlines ls ++ l) us := by
  have hfile := updateProfile_eq_tail hu (unlines ls ++ l)
  constructor
  · intro v hv
    rw [hfile]
    rcases (mem_list_iff hu).mp hv with rfl | hv
    · exact (h.parse_other _ fun v => ne_of_mem_tail hu).trans hjoined.parse_first
    · exact h.parse_updated v hv
  · intro k hk
    rw [hfile]
    exact (h.parse_other k (forall_mem_tail hk)).trans (hjoined.parse_other k hk)
  · intro v hv
    rw [hfile]
    rcases (mem_list_iff hu).mp hv with rfl | hv
    · rw [h.read_other _ fun v => ne_of_mem_tail hu]
      exact hjoined.read_first
    · exact h.read_updated v hv
  · intro k hk
    rw [hfile]
    exact (h.read_other k (forall_mem_tail hk)).trans (hjoined.read_other k hk)

/-- The first update goes where the last line stands, and the others behind it. -/
theorem roundTrip_joined_iff : RoundTrip (unlines ls ++ l) us ↔ Joined (unlines ls ++ l) us u ∧
    RoundTrip (unlines ls ++ l ++ unlines [u.line]) us.tail :=
  ⟨fun h => ⟨joined_of_roundTrip hls hl hu h, roundTrip_tail hls hl hu h⟩,
    fun h => roundTrip_of_joined hu h.1 h.2⟩

end Glued

/-! ### Unfinished lines that lose nothing -/

/-- What Kconfig keeps of a line. -/
def kept (r : Option (Text × Def)) : Option (Text × Option Def) := r.map fun r => (r.1, some r.2)

section kinds
variable {P : Text → Option Value} {R : Defs} {us : Updates types} {u : Update types} {k : Text}

theorem write_some_self {β : Type} (m : Text → Option β) (k : Text) (b : Option β) :
    LastWins.write m (some (k, b)) k = b := Function.update_self ..

theorem write_some_of_ne {β : Type} (m : Text → Option β) {k k' : Text} (h : k ≠ k')
    (b : Option β) : LastWins.write m (some (k', b)) k = m k := Function.update_of_ne h ..

theorem write_kept_self (g : SymType → Option Def) (n : Text) :
    LastWins.write R (kept ((types n).bind fun type => (g type).map fun d => (n, d))) n =
      ((types n).bind g).or (R n) := by
  cases htype : types n with
  | none => rfl
  | some type =>
    cases hd : g type with
    | none => simp [hd, kept, LastWins.write]
    | some d => simp [hd, kept, LastWins.write]

theorem write_kept_of_ne {n : Text} (h : k ≠ n) (g : SymType → Option Def) :
    LastWins.write R (kept ((types n).bind fun type => (g type).map fun d => (n, d))) k = R k := by
  cases htype : types n with
  | none => rfl
  | some type =>
    cases hd : g type with
    | none => simp [hd, kept, LastWins.write]
    | some d => simp [hd, kept, LastWins.write, h]

/-- Two lines that write the same key are alike for the keys in `H` exactly when it is not among them
or they write the same. -/
theorem forall_write_eq_iff {β : Type} {m a b : Text → Option β} {n : Text} {H : Text → Prop}
    (ha : ∀ k, k ≠ n → a k = m k) (hb : ∀ k, k ≠ n → b k = m k) :
    (∀ k, ¬ H k → a k = b k) ↔ H n ∨ a n = b n := by
  constructor
  · exact fun h => or_iff_not_imp_left.mpr (h n)
  · rintro h k hk
    by_cases hkn : k = n
    · subst hkn
      exact h.resolve_left hk
    · rw [ha k hkn, hb k hkn]

/-- `parse_profile` at a line that begins with a hash. -/
theorem parse_hash_iff (t : Text) :
    (P u.name.text = some u.value ∧ ∀ k, ¬ us.Has k → P k = LastWins.write P (parseLine ('#' :: t)) k) ↔
      P u.name.text = some u.value ∧
        ∀ n, matchUnset ('#' :: t) = some n → us.Has n ∨ P n = some (.bool false) := by
  have hline : parseLine ('#' :: t) =
      (matchUnset ('#' :: t)).map fun n => (n, some (.bool false)) := by
    rw [parseLine, matchAssign_hash]
  refine and_congr_right fun _ => ?_
  rw [hline]
  cases hunset : matchUnset ('#' :: t) with
  | none => simp [LastWins.write]
  | some n =>
    have hiff := @forall_write_eq_iff Value P P (LastWins.write P (some (n, some (.bool false)))) n
      us.Has (fun _ _ => rfl) fun k hk => write_some_of_ne P hk _
    rw [write_some_self] at hiff
    simpa using hiff

theorem write_unset_self (n : Text) :
    LastWins.write R (kept (some (n, .tri .no))) n = some (.tri .no) := by
  simp [kept, LastWins.write]

theorem write_unset_of_ne {n : Text} (h : k ≠ n) :
    LastWins.write R (kept (some (n, .tri .no))) k = R k := by
  simp [kept, LastWins.write, h]

theorem same_no_iff {type : SymType} {v : Value} :
    Same type (some (.tri .no)) (some v) ↔ v = .bool false :=
  ⟨eq_false_of_same, fun h => h ▸ rfl⟩

/-- Kconfig at a line that begins with a hash, of which `a` is what is read and `a'` what is read when
it goes on. -/
theorem read_hash_iff {a a' : Option Text} (ha : ∀ n, a = some n → a' = some n) :
    (Same u.type (LastWins.write R (kept (a'.map fun n => (n, .tri .no))) u.name.text)
        (some u.value) ∧
      ∀ k, ¬ us.Has k → LastWins.write R (kept (a'.map fun n => (n, .tri .no))) k =
        LastWins.write R (kept (a.map fun n => (n, .tri .no))) k) ↔
      (a' = some u.name.text → u.value = .bool false) ∧
      (a' ≠ some u.name.text → Same u.type (R u.name.text) (some u.value)) ∧
      ∀ n, a' = some n → a = some n ∨ us.Has n ∨ R n = some (.tri .no) := by
  cases a' with
  | none =>
    obtain rfl : a = none := Option.eq_none_iff_forall_ne_some.mpr fun n hn => nomatch ha n hn
    simp [kept, LastWins.write]
  | some n =>
    have hfirst : Same u.type (LastWins.write R (kept (some (n, .tri .no))) u.name.text)
        (some u.value) ↔ (n = u.name.text → u.value = .bool false) ∧
          (n ≠ u.name.text → Same u.type (R u.name.text) (some u.value)) := by
      by_cases hn : n = u.name.text
      · rw [hn, write_unset_self, same_no_iff]
        simp
      · rw [write_unset_of_ne (Ne.symm hn)]
        simp [hn]
    have hothers : (∀ k, ¬ us.Has k → LastWins.write R (kept (some (n, .tri .no))) k =
        LastWins.write R (kept (a.map fun n => (n, .tri .no))) k) ↔
        a = some n ∨ us.Has n ∨ R n = some (.tri .no) := by
      cases a with
      | some m =>
        obtain rfl : n = m := by simpa using ha m rfl
        simp
      | none =>
        have hiff := @forall_write_eq_iff Def R (LastWins.write R (kept (some (n, .tri .no)))) R n
          us.Has (fun _ hk => write_unset_of_ne hk) fun _ _ => rfl
        rw [write_unset_self, eq_comm (a := some (Def.tri .no))] at hiff
        simpa [kept, LastWins.write] using hiff
    simp only [Option.map_some, hfirst, hothers, Option.some.injEq, ne_eq, forall_eq', and_assoc]

theorem parseValue_quote (q : Text) :
    parseValue ('"' :: q) = (matchQuoted ('"' :: q)).map .str := by
  rw [parseValue, if_neg (by simp), Lua.toNumber_none_of_mem (List.mem_cons_self ..) rfl]

/-- When a value goes on with the line of an update. -/
theorem closed_iff (p : Text) (u : Update types) :
    (matchQuoted (p ++ u.line)).map Value.str = parseValue p ↔ Closed p := by
  by_cases hhead : p.head? = some '"'
  · obtain ⟨q, rfl⟩ : ∃ q, p = '"' :: q := List.head?_eq_some_iff.mp hhead
    have hclosed : Closed ('"' :: q) ↔ '"' ∈ q := by simp [Closed]
    rw [hclosed, parseValue_quote]
    by_cases hq : '"' ∈ q
    · have htake := Scan.takeWhile_append_of_mem (p := (· ≠ '"')) hq (by simp) u.line
      simp only [List.cons_append, matchQuoted, htake, hq]
    · refine iff_of_false (fun h => ?_) hq
      obtain ⟨c, t, hline⟩ := List.exists_cons_of_ne_nil (line_ne_nil u)
      have hc : c ≠ '"' := fun hc => head?_line u (by rw [hline, hc]; rfl)
      have hq' : ∀ x ∈ q, decide (x ≠ '"') = true := fun x hx =>
        decide_eq_true fun hxq => hq (hxq ▸ hx)
      have hlong : (q ++ u.line).takeWhile (· ≠ '"') = q ++ c :: t.takeWhile (· ≠ '"') := by
        rw [List.takeWhile_append_of_pos hq', hline, List.takeWhile_cons_of_pos (by simp [hc])]
      have hshort : q.takeWhile (· ≠ '"') = q := List.takeWhile_eq_self_iff.mpr hq'
      simp only [List.cons_append, matchQuoted, hlong, hshort] at h
      by_cases hnil : q = []
      · simp [hnil] at h
      · simp [hnil] at h
  · have hjoined : (p ++ u.line).head? ≠ some '"' := by
      cases p with
      | nil => exact head?_line u
      | cons c p => simpa using hhead
    rw [matchQuoted_of_head hjoined]
    simp [Closed, hhead, eq_comm]

theorem forall_type_iff {n : Text} {g g' : SymType → Option Def} {d : Option Def} :
    ((types n).bind g).or d = ((types n).bind g').or d ↔
      ∀ type, types n = some type → (g type).or d = (g' type).or d := by
  cases types n with
  | none => simp
  | some type => simp

theorem same_unquote_iff {s t : Text} (hs : '"' ∉ s) (old : Option Def) :
    Same .string (((unquote (s ++ '"' :: t)).map Def.val).or old) (some (.str s)) ↔
      '\\' ∉ s ∨ (unquote (s ++ '"' :: t) = none ∧ old = some (.val s)) := by
  by_cases hslash : '\\' ∈ s
  · cases hread : unquote (s ++ '"' :: t) with
    | some r =>
      have hne : r ≠ s := fun hr => unquote_ne_self hs hslash t (hr ▸ hread)
      simp [Same, hslash, hne]
    | none => rcases old with _ | (d | d) <;> simp [Same, hslash]
  · rw [unquote_of_not_mem hs hslash]
    simp [Same, hslash]

/-- The string that the option of the update has from the joined line. -/
theorem same_value_iff (p : Text) (u : Update types) (old : Option Def) :
    (u.value.OneLine ∧ (matchQuoted (p ++ u.line)).map Value.str = some u.value ∧
      Same u.type ((confSetSymVal u.type (p ++ u.line)).or old) (some u.value)) ↔
    ∃ q s t, p = '"' :: q ∧ u.type = .string ∧ u.value = .str s ∧ q ++ u.line = s ++ '"' :: t ∧
      s ≠ [] ∧ '"' ∉ s ∧ '\n' ∉ s ∧
      ('\\' ∉ s ∨ (unquote (q ++ u.line) = none ∧ old = some (.val s))) := by
  constructor
  · rintro ⟨hline, hparse, hread⟩
    obtain ⟨s, hs, hvalue⟩ := Option.map_eq_some_iff.mp hparse
    rw [← hvalue] at hread hline
    obtain ⟨q, rfl⟩ : ∃ q, p = '"' :: q := by
      cases p with
      | nil => rw [List.nil_append, matchQuoted_of_head (head?_line u)] at hs; cases hs
      | cons c q =>
        refine ⟨q, ?_⟩
        by_contra hc
        rw [matchQuoted_of_head (by simpa using fun h => hc (by rw [h]))] at hs
        cases hs
    rw [List.cons_append] at hs hread
    obtain ⟨htake, hne⟩ := matchQuoted_eq_some.mp hs
    have hquote : '"' ∈ q ++ u.line := by
      have hmem : '"' ∈ u.line := by
        rw [line_assign u (by rw [← hvalue]; exact nofun), ← hvalue]
        simp [valueText]
      exact List.mem_append_right _ hmem
    obtain ⟨as, t, heq, has⟩ := List.eq_append_cons_of_mem hquote
    rw [heq, takeWhile_quote has] at htake
    subst htake
    have htype := type_of_same_str hread
    rw [htype, heq] at hread
    exact ⟨q, as, t, rfl, htype, hvalue.symm, heq, hne, has, hline,
      heq ▸ (same_unquote_iff has old).mp hread⟩
  · rintro ⟨q, s, t, rfl, htype, hvalue, heq, hne, hs, hline, hread⟩
    have hmatch : matchQuoted ('"' :: q ++ u.line) = some s := by
      rw [List.cons_append, matchQuoted_eq_some, heq, takeWhile_quote hs]
      exact ⟨rfl, hne⟩
    rw [heq] at hread
    refine ⟨by rw [hvalue]; exact hline, by rw [hmatch, hvalue]; rfl, ?_⟩
    rw [htype, hvalue, List.cons_append, heq]
    exact (same_unquote_iff hs old).mpr hread

end kinds

theorem not_has_iff {us : Updates types} {k : Text} :
    ¬ us.Has k ↔ ∀ v ∈ us.list, v.name.text ≠ k := by
  simp [Updates.Has]

section joins
variable {ls : List Text} (hls : ∀ l ∈ ls, '\n' ∉ l) {l : Text} (hl : '\n' ∉ l) (hne : l ≠ [])
  {us : Updates types} {u : Update types}
include hls hl hne

theorem joined_iff_writes (hline : u.value.OneLine) :
    Joined (unlines ls ++ l) us u ↔
      (LastWins.write (parseProfile (unlines ls)) (parseLine (l ++ u.line)) u.name.text =
          some u.value ∧
        ∀ k, ¬ us.Has k → LastWins.write (parseProfile (unlines ls)) (parseLine (l ++ u.line)) k =
          LastWins.write (parseProfile (unlines ls)) (parseLine l) k) ∧
      Same u.type (LastWins.write (confReadSimple types (unlines ls))
          (kept (confReadLine types (l ++ u.line ++ ['\n']))) u.name.text) (some u.value) ∧
        ∀ k, ¬ us.Has k → LastWins.write (confReadSimple types (unlines ls))
          (kept (confReadLine types (l ++ u.line ++ ['\n']))) k =
            LastWins.write (confReadSimple types (unlines ls)) (kept (confReadLine types l)) k := by
  have hglued : '\n' ∉ l ++ u.line := by simpa using ⟨hl, not_mem_line u hline⟩
  have hparse := parseProfile_concat hls hglued (by simp [hne])
  have hread := @confReadSimple_concat types ls hls (l ++ u.line) hglued
  have hparse' := parseProfile_unterminated hls hl hne
  have hread' := @confReadSimple_unterminated types ls hls l hl hne
  simp only [not_has_iff]
  constructor
  · rintro ⟨hfirst, hother, hfirst', hother'⟩
    rw [unlines_joined] at hfirst hfirst'
    simp only [unlines_joined, hparse, hparse'] at hfirst hother
    simp only [unlines_joined, hread, hread'] at hfirst' hother'
    exact ⟨⟨hfirst, hother⟩, hfirst', hother'⟩
  · rintro ⟨⟨hfirst, hother⟩, hfirst', hother'⟩
    refine ⟨?_, ?_, ?_, ?_⟩
    · rwa [unlines_joined, hparse]
    · simpa only [unlines_joined, hparse, hparse'] using hother
    · rwa [unlines_joined, hread]
    · simpa only [unlines_joined, hread, hread', kept] using hother'

end joins

section joins
variable {ls : List Text} (hls : ∀ l ∈ ls, '\n' ∉ l) {us : Updates types} {u : Update types}
include hls

theorem joined_hash_iff {t : Text} (hl : '\n' ∉ '#' :: t) :
    Joined (unlines ls ++ '#' :: t) us u ↔
      parseProfile (unlines ls) u.name.text = some u.value ∧
      (∀ n, matchUnset ('#' :: t) = some n →
        us.Has n ∨ parseProfile (unlines ls) n = some (.bool false)) ∧
      (readUnset types ('#' :: t ++ u.line ++ ['\n']) = some u.name.text → u.value = .bool false) ∧
      (readUnset types ('#' :: t ++ u.line ++ ['\n']) ≠ some u.name.text →
        Same u.type (confReadSimple types (unlines ls) u.name.text) (some u.value)) ∧
      ∀ n, readUnset types ('#' :: t ++ u.line ++ ['\n']) = some n →
        readUnset types ('#' :: t) = some n ∨ us.Has n ∨
          confReadSimple types (unlines ls) n = some (.tri .no) := by
  have hparse := @parse_hash_iff types (parseProfile (unlines ls)) us u t
  have hmono : ∀ n, readUnset types ('#' :: t) = some n →
      readUnset types ('#' :: t ++ u.line ++ ['\n']) = some n := fun n hn => by
    rw [List.append_assoc]
    exact readUnset_append hn _
  have hread := @read_hash_iff types (confReadSimple types (unlines ls)) us u _ _ hmono
  have hunset : confReadLine types ('#' :: t ++ u.line ++ ['\n']) =
      (readUnset types ('#' :: t ++ u.line ++ ['\n'])).map fun n => (n, .tri .no) :=
    confReadLine_hash (t ++ u.line ++ ['\n'])
  have hwrites := fun hline => @joined_iff_writes types ls hls _ hl (List.cons_ne_nil _ _) us u hline
  simp only [parseLine_joined_hash, hunset, confReadLine_hash, LastWins.write] at hwrites
  constructor
  · intro h
    obtain ⟨hp, hr⟩ := (hwrites (oneLine_of_parseProfile h.parse_first)).mp h
    obtain ⟨hfirst, hothers⟩ := hparse.mp hp
    exact ⟨hfirst, hothers, hread.mp hr⟩
  · rintro ⟨hfirst, hothers, hr⟩
    exact (hwrites (oneLine_of_parseProfile hfirst)).mpr ⟨hparse.mpr ⟨hfirst, hothers⟩, hread.mpr hr⟩

theorem joined_other_iff {name p : Text} (hl : '\n' ∉ name ++ '=' :: p) (heq : '=' ∉ name)
    (hhash : name.head? ≠ some '#') (hname : name ≠ u.name.text) :
    Joined (unlines ls ++ (name ++ '=' :: p)) us u ↔
      Given (unlines ls) u ∧ (us.Has name ∨ (KeyName name ∧ name ≠ [] → Closed p) ∧
        ∀ type, types name = some type →
          (confSetSymVal type (p ++ u.line)).or (confReadSimple types (unlines ls) name) =
            (confSetSymVal type p).or (confReadSimple types (unlines ls) name)) := by
  set P := parseProfile (unlines ls) with hP
  set R := confReadSimple types (unlines ls) with hR
  have hp : '\n' ∉ p := fun h => hl (List.mem_append_right _ (List.mem_cons_of_mem _ h))
  have hassoc : name ++ '=' :: p ++ u.line = name ++ '=' :: (p ++ u.line) := by simp
  have hparse : (LastWins.write P (parseLine (name ++ '=' :: (p ++ u.line))) u.name.text =
        some u.value ∧ ∀ k, ¬ us.Has k →
          LastWins.write P (parseLine (name ++ '=' :: (p ++ u.line))) k =
            LastWins.write P (parseLine (name ++ '=' :: p)) k) ↔
      P u.name.text = some u.value ∧ (us.Has name ∨ (KeyName name ∧ name ≠ [] → Closed p)) := by
    by_cases hkey : KeyName name ∧ name ≠ []
    · have hothers := @forall_write_eq_iff Value P _ _ name us.Has
        (fun k hk => write_some_of_ne P hk ((matchQuoted (p ++ u.line)).map .str))
        (fun k hk => write_some_of_ne P hk (parseValue p))
      rw [write_some_self, write_some_self, closed_iff] at hothers
      rw [parseLine_joined_option u hkey, parseLine_option_key hkey,
        write_some_of_ne P (Ne.symm hname), hothers]
      simp [hkey]
    · rw [parseLine_option_none heq hhash hkey, parseLine_option_none heq hhash hkey]
      simp [hkey, LastWins.write]
  have hread : u.value.OneLine →
      ((Same u.type (LastWins.write R (kept (confReadLine types
          (name ++ '=' :: (p ++ u.line) ++ ['\n']))) u.name.text) (some u.value) ∧
        ∀ k, ¬ us.Has k →
          LastWins.write R (kept (confReadLine types (name ++ '=' :: (p ++ u.line) ++ ['\n']))) k =
            LastWins.write R (kept (confReadLine types (name ++ '=' :: p))) k) ↔
      Same u.type (R u.name.text) (some u.value) ∧ (us.Has name ∨
        ∀ type, types name = some type →
          (confSetSymVal type (p ++ u.line)).or (R name) =
            (confSetSymVal type p).or (R name))) := by
    intro hline
    have hothers := @forall_write_eq_iff Def R _ _ name us.Has
      (fun k hk => @write_kept_of_ne types R k name hk fun type => confSetSymVal type (p ++ u.line))
      (fun k hk => @write_kept_of_ne types R k name hk fun type => confSetSymVal type p)
    rw [write_kept_self, write_kept_self, forall_type_iff] at hothers
    rw [confReadLine_joined_option u heq hhash hp hline,
      confReadLine_option_unfinished heq hhash hp, write_kept_of_ne (Ne.symm hname), hothers]
  have hwrites := fun hline => @joined_iff_writes types ls hls _ hl (by simp) us u hline
  rw [hassoc] at hwrites
  rw [or_and_left]
  constructor
  · intro h
    have hline := oneLine_of_parseProfile h.parse_first
    obtain ⟨hp', hr'⟩ := (hwrites hline).mp h
    obtain ⟨hfirst, hclosed⟩ := hparse.mp hp'
    obtain ⟨hsame, hothers⟩ := (hread hline).mp hr'
    exact ⟨⟨hfirst, hsame⟩, hclosed, hothers⟩
  · rintro ⟨⟨hfirst, hsame⟩, hclosed, hothers⟩
    have hline := oneLine_of_parseProfile hfirst
    exact (hwrites hline).mpr ⟨hparse.mpr ⟨hfirst, hclosed⟩, (hread hline).mpr ⟨hsame, hothers⟩⟩

theorem joined_same_iff {p : Text} (hl : '\n' ∉ u.name.text ++ '=' :: p)
    (hhas : us.Has u.name.text) :
    Joined (unlines ls ++ (u.name.text ++ '=' :: p)) us u ↔
      KeyName u.name.text ∧ u.value.OneLine ∧
        (matchQuoted (p ++ u.line)).map Value.str = some u.value ∧
          Same u.type ((confSetSymVal u.type (p ++ u.line)).or
            (confReadSimple types (unlines ls) u.name.text)) (some u.value) := by
  set P := parseProfile (unlines ls) with hP
  set R := confReadSimple types (unlines ls) with hR
  have heq : '=' ∉ u.name.text := u.name.not_mem rfl
  have hhash := head?_nameText u.name
  have hp : '\n' ∉ p := fun h => hl (List.mem_append_right _ (List.mem_cons_of_mem _ h))
  have hassoc : u.name.text ++ '=' :: p ++ u.line = u.name.text ++ '=' :: (p ++ u.line) := by simp
  have hwrites := fun hline => @joined_iff_writes types ls hls _ hl (by simp) us u hline
  rw [hassoc] at hwrites
  have hjoined : KeyName u.name.text → u.value.OneLine →
      (Joined (unlines ls ++ (u.name.text ++ '=' :: p)) us u ↔
        (matchQuoted (p ++ u.line)).map Value.str = some u.value ∧
          Same u.type ((confSetSymVal u.type (p ++ u.line)).or (R u.name.text))
            (some u.value)) := by
    intro hkey hline
    have hkey' : KeyName u.name.text ∧ u.name.text ≠ [] := ⟨hkey, u.name.ne_nil⟩
    have hparse := @forall_write_eq_iff Value P _ _ u.name.text us.Has
      (fun k hk => write_some_of_ne P hk ((matchQuoted (p ++ u.line)).map .str))
      (fun k hk => write_some_of_ne P hk (parseValue p))
    have hread := @forall_write_eq_iff Def R _ _ u.name.text us.Has
      (fun k hk => @write_kept_of_ne types R k _ hk fun type => confSetSymVal type (p ++ u.line))
      (fun k hk => @write_kept_of_ne types R k _ hk fun type => confSetSymVal type p)
    rw [hwrites hline, parseLine_joined_option u hkey', parseLine_option_key hkey',
      confReadLine_joined_option u heq hhash hp hline, confReadLine_option_unfinished heq hhash hp,
      hparse, hread, write_some_self, write_kept_self, u.types_name, Option.bind_some]
    simp only [hhas, true_or, and_true, hR]
  constructor
  · intro h
    have hkey := keyName_of_parseProfile h.parse_first
    have hline := oneLine_of_parseProfile h.parse_first
    exact ⟨hkey, hline, (hjoined hkey hline).mp h⟩
  · rintro ⟨hkey, hline, h⟩
    exact (hjoined hkey hline).mpr h

theorem joined_fragment_iff {l : Text} (hl : '\n' ∉ l) (hne : l ≠ []) (heq : '=' ∉ l)
    (hhash : l.head? ≠ some '#') :
    Joined (unlines ls ++ l) us u ↔
      Given (unlines ls) u ∧ (u.value = .bool false ∨ us.Has (l ++ u.name.text) ∨
        (KeyName l → parseProfile (unlines ls) (l ++ u.name.text) = some u.value) ∧
        ∀ type d, types (l ++ u.name.text) = some type → readUpdate type u.value = some d →
          confReadSimple types (unlines ls) (l ++ u.name.text) = some d) := by
  set P := parseProfile (unlines ls) with hP
  set R := confReadSimple types (unlines ls) with hR
  have hlong : u.name.text ≠ l ++ u.name.text := by
    intro h
    have hlength := congrArg List.length h
    rw [List.length_append] at hlength
    exact hne (List.length_eq_zero_iff.mp (by omega))
  have hparse : KeyName u.name.text → parsedUpdate u.value = some u.value →
      ((LastWins.write P (parseLine (l ++ u.line)) u.name.text = some u.value ∧
        ∀ k, ¬ us.Has k → LastWins.write P (parseLine (l ++ u.line)) k =
          LastWins.write P (parseLine l) k) ↔
      P u.name.text = some u.value ∧ (u.value = .bool false ∨ us.Has (l ++ u.name.text) ∨
        (KeyName l → P (l ++ u.name.text) = some u.value))) := by
    intro hkey hvalue
    rw [parseLine_fragment heq hhash]
    by_cases hu : u.value = .bool false
    · rw [parseLine_joined_fragment_unset u heq hhash hne hu]
      simp [LastWins.write, hu]
    · have hlongKey : KeyName (l ++ u.name.text) ↔ KeyName l := by
        simp only [KeyName, List.mem_append, or_imp, forall_and]
        exact and_iff_left hkey
      rw [parseLine_joined_fragment u heq hhash hu, hvalue]
      split
      · rename_i hlongName
        have hl := hlongKey.mp hlongName
        have hothers := @forall_write_eq_iff Value P _ P (l ++ u.name.text) us.Has
          (fun k hk => write_some_of_ne P hk (some u.value)) fun _ _ => rfl
        rw [write_some_self, eq_comm (a := some u.value)] at hothers
        rw [write_some_of_ne P hlong]
        simp only [hu, false_or, hl, forall_const]
        exact and_congr_right fun _ => hothers
      · rename_i hlongName
        simp [LastWins.write, mt hlongKey.mpr hlongName]
  have hread : u.value.OneLine →
      ((Same u.type (LastWins.write R (kept (confReadLine types (l ++ u.line ++ ['\n'])))
          u.name.text) (some u.value) ∧
        ∀ k, ¬ us.Has k → LastWins.write R (kept (confReadLine types (l ++ u.line ++ ['\n']))) k =
          LastWins.write R (kept (confReadLine types l)) k) ↔
      Same u.type (R u.name.text) (some u.value) ∧
        (u.value = .bool false ∨ us.Has (l ++ u.name.text) ∨
          ∀ type d, types (l ++ u.name.text) = some type → readUpdate type u.value = some d →
            R (l ++ u.name.text) = some d)) := by
    intro hline
    rw [confReadLine_none heq hhash]
    by_cases hu : u.value = .bool false
    · rw [confReadLine_joined_fragment_unset u heq hhash hne hu]
      simp [LastWins.write, kept, hu]
    · have hothers := @forall_write_eq_iff Def R _ R (l ++ u.name.text) us.Has
        (fun k hk => @write_kept_of_ne types R k _ hk fun type => readUpdate type u.value)
        fun _ _ => rfl
      rw [write_kept_self] at hothers
      rw [confReadLine_joined_fragment u heq hhash hu hline, write_kept_of_ne hlong]
      simp only [hu, false_or]
      refine and_congr_right fun _ => hothers.trans (or_congr_right ?_)
      cases htype : types (l ++ u.name.text) with
      | none => simp
      | some type =>
        simp only [Option.bind_some, Option.some.injEq]
        constructor
        · rintro h _ d rfl hd
          rw [hd, Option.some_or] at h
          exact h.symm
        · intro h
          cases hd : readUpdate type u.value with
          | none => rfl
          | some d => exact (h type d rfl hd).symm
  have hwrites := fun hline => @joined_iff_writes types ls hls _ hl hne us u hline
  have hfacts : ∀ {profile : Text}, parseProfile profile u.name.text = some u.value →
      KeyName u.name.text ∧ u.value.OneLine ∧ parsedUpdate u.value = some u.value := fun h =>
    ⟨keyName_of_parseProfile h, oneLine_of_parseProfile h, (parsedUpdate_iff u).mpr fun _ hs =>
      quoted_of_parseProfile (hs ▸ h)⟩
  rw [or_and_left, or_and_left]
  constructor
  · intro h
    obtain ⟨hkey, hline, hvalue⟩ := hfacts h.parse_first
    obtain ⟨hp, hr⟩ := (hwrites hline).mp h
    obtain ⟨hfirst, hothers⟩ := (hparse hkey hvalue).mp hp
    obtain ⟨hsame, hothers'⟩ := (hread hline).mp hr
    exact ⟨⟨hfirst, hsame⟩, hothers, hothers'⟩
  · rintro ⟨⟨hfirst, hsame⟩, hothers, hothers'⟩
    obtain ⟨hkey, hline, hvalue⟩ := hfacts hfirst
    exact (hwrites hline).mpr
      ⟨(hparse hkey hvalue).mpr ⟨hfirst, hothers⟩, (hread hline).mpr ⟨hsame, hothers'⟩⟩

theorem joined_iff {l : Text} (hl : '\n' ∉ l) (hne : l ≠ []) (hhas : us.Has u.name.text) :
    Joined (unlines ls ++ l) us u ↔ Joins (unlines ls) us u l := by
  constructor
  · intro h
    by_cases hhash : l.head? = some '#'
    · obtain ⟨t, rfl⟩ := List.head?_eq_some_iff.mp hhash
      obtain ⟨hfirst, hunset, hself, hsame, hothers⟩ := (joined_hash_iff hls hl).mp h
      exact .hash hfirst hunset hself hsame hothers
    · by_cases heq : '=' ∈ l
      · obtain ⟨name, p, rfl, hname⟩ := List.eq_append_cons_of_mem heq
        have hhead : name.head? ≠ some '#' := by
          intro h
          obtain ⟨t, rfl⟩ := List.head?_eq_some_iff.mp h
          exact hhash rfl
        by_cases hsame : name = u.name.text
        · subst hsame
          obtain ⟨hkey, hvalue⟩ := (joined_same_iff hls hl hhas).mp h
          obtain ⟨q, s, t, rfl, htype, hv, hq, hs, hquote, hnl, hread⟩ :=
            (same_value_iff p u _).mp hvalue
          exact .same hkey htype hv hq hs hquote hnl hread
        · obtain ⟨hgiven, hothers⟩ := (joined_other_iff hls hl hname hhead hsame).mp h
          exact .other hname hhead hsame hgiven hothers
      · obtain ⟨hgiven, hothers⟩ := (joined_fragment_iff hls hl hne heq hhash).mp h
        exact .fragment heq hhash hgiven hothers
  · intro h
    cases h with
    | hash hfirst hunset hself hsame hothers =>
      exact (joined_hash_iff hls hl).mpr ⟨hfirst, hunset, hself, hsame, hothers⟩
    | other hname hhead hsame hgiven hothers =>
      exact (joined_other_iff hls hl hname hhead hsame).mpr ⟨hgiven, hothers⟩
    | same hkey htype hv hq hs hquote hnl hread =>
      exact (joined_same_iff hls hl hhas).mpr
        ⟨hkey, (same_value_iff _ u _).mpr ⟨_, _, _, rfl, htype, hv, hq, hs, hquote, hnl, hread⟩⟩
    | fragment heq hhash hgiven hothers =>
      exact (joined_fragment_iff hls hl hne heq hhash).mpr ⟨hgiven, hothers⟩

end joins

/-- After a last line that `conf_write` makes, the first update is lost: the file has it already. -/
theorem Joined.parse_eq {ls : List Text} (hls : ∀ l ∈ ls, '\n' ∉ l) {l : Line} (hl : l.Ok types)
    (hne : l.text ≠ []) {us : Updates types} {u : Update types}
    (h : Joined (unlines ls ++ l.text) us u) :
    parseProfile (unlines ls ++ l.text) u.name.text = some u.value := by
  have hline := Line.not_mem_text hl
  have hglued : '\n' ∉ l.text ++ u.line := by
    simpa using ⟨hline, not_mem_line u (oneLine_of_parseProfile h.parse_first)⟩
  have hfirst := h.parse_first
  rw [unlines_joined, parseProfile_concat hls hglued (by simp [hne])] at hfirst
  rw [parseProfile_unterminated hls hline hne, parseLine_text hl hne]
  rcases l with _ | t | ⟨n, v⟩
  · exact absurd rfl hne
  · have htext : ∃ s, (Line.comment t).text = '#' :: s := by
      cases t with
      | nil => exact ⟨[], rfl⟩
      | cons c t => exact ⟨' ' :: c :: t, rfl⟩
    obtain ⟨s, hs⟩ := htext
    rw [hs, parseLine_joined_hash] at hfirst
    exact hfirst
  · simp only [Line.assigns, Option.bind_some]
    by_cases hset : (v.type = .boolean ∨ v.type = .tristate) ∧ (symGetStringValue v).head? = some 'n'
    · have htext : optionText n v = "# ".toList ++ n.text ++ " is not set".toList := if_pos hset
      have hback : readBack v = some (.bool false) := if_pos hset
      have hnone : parseLine (optionText n v ++ u.line) = none := by
        rw [htext]
        exact parseLine_joined_hash (t := ' ' :: (n.text ++ " is not set".toList)) u
      rw [Line.text, hnone] at hfirst
      split
      · by_cases hn : n.text = u.name.text
        · have hread := h.read_first
          rw [unlines_joined, confReadSimple_concat hls hglued, Line.text, htext, List.append_assoc,
            confReadLine_unset hl.1, if_pos hset.1, Option.map_some, LastWins.write, hn,
            Function.update_self] at hread
          rw [LastWins.write, hn, Function.update_self, hback, eq_false_of_same hread]
        · rw [LastWins.write, Function.update_of_ne (Ne.symm hn)]
          exact hfirst
      · exact hfirst
    · have htext : optionText n v = n.text ++ '=' :: printedValue v := if_neg hset
      have hback : readBack v = parseValue (printedValue v) := if_neg hset
      rw [Line.text, htext, List.append_assoc, List.cons_append, parseLine_assign] at hfirst
      split
      · rename_i hkey
        rw [if_pos hkey] at hfirst
        by_cases hn : n.text = u.name.text
        · rw [LastWins.write, hn, Function.update_self] at hfirst
          rw [LastWins.write, hn, Function.update_self, hback]
          exact parseValue_joined v u hfirst
        · rw [LastWins.write, Function.update_of_ne (Ne.symm hn)] at hfirst ⊢
          exact hfirst
      · rename_i hkey
        rw [if_neg hkey] at hfirst
        exact hfirst

theorem roundTrip_of_nil {us : Updates types} (hus : us.list = []) (profile : Text) :
    RoundTrip profile us := by
  have hfile : updateProfile profile us = profile := by simp [updateProfile, hus, unlines]
  constructor
  · intro u hu
    simp [hus] at hu
  · intro k _
    rw [hfile]
  · intro u hu
    simp [hus] at hu
  · intro k _
    rw [hfile]

/-! ### Whole files -/

def padsizeName : Name :=
  ⟨"BR2_TARGET_ROOTFS_JFFS2_PADSIZE".toList, by decide, List.all_eq_true.mp rfl⟩

def padsizeFile : ConfigFile fun _ => some .hex where
  lines := [.option padsizeName (.hex (some ⟨.lower, "10".toList, by decide, List.all_eq_true.mp rfl⟩))]
  ok := by
    rintro l hl
    obtain rfl := List.mem_singleton.mp hl
    exact ⟨rfl, trivial, show '\n' ∉ printedValue (.hex _) by decide⟩

/-- The value that the fixup tool has read. -/
def padsizeUpdates : Updates fun _ => some .hex where
  list := [{ name := padsizeName, type := .hex, types_name := rfl, value := .int 16,
             inInt64_of_int := by rintro i hi; cases hi; decide }]
  nodup := by simp

end Dir842.Profile
