import Dir842.Lib.Run
import Dir842.Tz.OutZone
import Mathlib.Data.Char
import Mathlib.Data.List.Lex
import Mathlib.Data.List.Nodup
import Mathlib.Data.List.Sort

/-!
# Zones and links (`gen4dm.py`)

`process_zone_file` reads a file twice. In the first reading a zone is emitted when a line comes
that does not belong to it, in the second one a link is attached to its target.
-/

namespace Dir842.Tz

open Kconfig (Text)
open Run Words

inductive LineType
  | empty | comment | zoneHeader | rule | link | other
deriving DecidableEq

def getLineType (line : Text) : LineType :=
  match lstrip line with
  | [] => .empty
  | '#' :: _ => .comment
  | rip =>
    let token := word rip 0
    if token = "Z".toList then .zoneHeader
    else if token = "R".toList then .rule
    else if token = "Li".toList ∨ token = "L".toList then .link
    else .other

def outLink (out : Out) (line : Text) : Except Failure Out := do
  let zone ← item (words line) 1
  let link ← item (words line) 2
  match out.data zone with
  | some e =>
    .ok { out with
      links := out.links ++ [link]
      data := Function.update out.data zone
        (some { e with links := some (e.links.getD [] ++ [link]) }) }
  | none => .error (.keyError zone)

/-- The variables of the first loop. -/
structure Scan where
  inZone : Bool
  zoneHeader : Text
  prevline : Text
  out : Out

def Scan.leave (s : Scan) (lt : LineType) : Except Failure Scan :=
  if s.inZone = true ∧ lt ≠ .other then
    (outZone s.out s.zoneHeader s.prevline).map fun out => { s with out, inZone := false }
  else .ok s

def Scan.enter (s : Scan) (lt : LineType) (line : Text) : Scan :=
  if lt = .zoneHeader then { s with zoneHeader := line, inZone := true } else s

def scanLine (s : Scan) (line : Text) : Except Failure Scan :=
  let lt := getLineType line
  if lt = .comment then .ok s
  else (s.leave lt).map fun s => { s.enter lt line with prevline := line }

def linkLine (out : Out) (line : Text) : Except Failure Out :=
  if getLineType line = .link then outLink out line else .ok out

def processZoneFile (out : Out) (file : List Text) : Except Failure Out := do
  let s ← file.foldlM scanLine ⟨false, [], [], out⟩
  file.foldlM linkLine s.out

def collectZones (files : List (List Text)) : Except Failure Out := do
  let out ← files.foldlM processZoneFile ⟨[], [], fun _ => none⟩
  .ok { out with names := out.names.mergeSort, links := out.links.mergeSort }

/-! ### What the files say -/

/-- A header with the lines of the file that come after it. -/
structure Zone where
  header : Text
  rest : List Text

def isOther (line : Text) : Bool := getLineType line = .other

def notComment (line : Text) : Bool := getLineType line ≠ .comment

/-- Neither a comment nor blank. -/
def isDirective (line : Text) : Bool := getLineType line ≠ .comment ∧ getLineType line ≠ .empty

namespace Zone
variable (z : Zone)

def name : Text := word z.header 1

/-- The continuation lines; comments and blank lines do not end them. -/
def continuation : List Text := (z.rest.filter isDirective).takeWhile isOther

/-- The offset of the last line of the zone. -/
def offset : Text := finalOffset z.header (z.continuation.getLastD z.header)

/-- A line of the file after the zone makes the program emit it. -/
def Ended : Prop := ∃ l ∈ z.rest, notComment l = true ∧ isOther l = false

instance : Decidable z.Ended := List.decidableBEx _ z.rest

/-- The last line of the zone that the program reads, which a blank line stops. -/
def lastRead : Text := ((z.rest.filter notComment).takeWhile isOther).getLastD z.header

def offsetRead : Text := finalOffset z.header z.lastRead

/-- No blank line hides another offset, and no minus stands before hours that are zero; or the
offset that is read has the opposite sign for both reasons at once. -/
def OffsetKept : Prop :=
  ∃ o r : GmtOff, o.text = z.offset ∧ r.text = z.offsetRead ∧
    (¬ r.LosesSign → r.seconds = o.seconds) ∧ (r.LosesSign → -r.seconds = o.seconds)

end Zone

def zonesIn : List Text → List Zone
  | [] => []
  | l :: ls => if getLineType l = .zoneHeader then ⟨l, ls⟩ :: zonesIn ls else zonesIn ls

structure Link where
  target : Text
  name : Text

def linksIn (file : List Text) : List Link :=
  (file.filter fun l => getLineType l = .link).map fun l => ⟨word l 1, word l 2⟩

/-- Source files: the lines have the fields that their keywords ask for, and the names are
distinct. -/
structure Tzdata where
  files : List (List Text)
  zone_words : ∀ file ∈ files, ∀ l ∈ file, getLineType l = .zoneHeader → 3 ≤ (words l).length
  link_words : ∀ file ∈ files, ∀ l ∈ file, getLineType l = .link → 3 ≤ (words l).length
  nodup : ((files.flatMap zonesIn).map Zone.name ++ (files.flatMap linksIn).map Link.name).Nodup

namespace Tzdata
variable (t : Tzdata)

def zones : List Zone := t.files.flatMap zonesIn

def links : List Link := t.files.flatMap linksIn

/-- The zone that a name stands for, through any number of links. -/
inductive Denotes : Text → Text → Prop
  | zone {z : Zone} : z ∈ t.zones → Denotes z.name z.name
  | link {l : Link} {zone : Text} : l ∈ t.links → Denotes l.target zone → Denotes l.name zone

end Tzdata

structure Complete (t : Tzdata) (out : Out) : Prop where
  zones : out.names.Perm (t.zones.map Zone.name)
  offsets : ∀ z ∈ t.zones, ∃ e, out.data z.name = some e ∧
    ∃ o : GmtOff, o.text = z.offset ∧ e.offset = o.seconds
  links : out.links.Perm (t.links.map Link.name)
  attached : ∀ l ∈ t.links, ∃ zone e, t.Denotes l.name zone ∧ out.data zone = some e ∧
    l.name ∈ e.links.getD []
  denoted : ∀ zone e, out.data zone = some e → ∀ n ∈ e.links.getD [], t.Denotes n zone
  sorted_zones : out.names.Pairwise (· ≤ ·)
  sorted_links : out.links.Pairwise (· ≤ ·)

/-! ### The first reading -/

section scan
variable {l : Text} {ls : List Text}

theorem notComment_iff : notComment l = true ↔ getLineType l ≠ .comment := by simp [notComment]

theorem isOther_iff : isOther l = true ↔ getLineType l = .other := by simp [isOther]

/-- The zone of a header is emitted when a line stops it; `prev` is its last line so far. -/
def emitAt (out : Out) (header prev : Text) (ls : List Text) : Except Failure Out :=
  if ∃ l ∈ ls, notComment l = true ∧ isOther l = false then
    outZone out header (((ls.filter notComment).takeWhile isOther).getLastD prev)
  else .ok out

def emitZone (out : Out) (z : Zone) : Except Failure Out := emitAt out z.header z.header z.rest

variable {out : Out} {header prev : Text}

theorem emitAt_comment (h : getLineType l = .comment) :
    emitAt out header prev (l :: ls) = emitAt out header prev ls := by
  have hl : notComment l = false := by simp [notComment, h]
  simp only [emitAt, List.exists_mem_cons_iff, hl, Bool.false_eq_true, false_and, false_or,
    List.filter_cons_of_neg, not_false_eq_true]

theorem emitAt_other (h : getLineType l = .other) :
    emitAt out header prev (l :: ls) = emitAt out header l ls := by
  have hl : notComment l = true := notComment_iff.mpr (by rw [h]; exact nofun)
  have ho : isOther l = true := isOther_iff.mpr h
  simp only [emitAt, List.exists_mem_cons_iff, hl, ho, Bool.true_eq_false, and_false, false_or,
    List.filter_cons_of_pos, List.takeWhile_cons_of_pos, List.getLastD_cons]

theorem emitAt_stop (hc : getLineType l ≠ .comment) (ho : getLineType l ≠ .other) :
    emitAt out header prev (l :: ls) = outZone out header prev := by
  have hl : notComment l = true := notComment_iff.mpr hc
  have ho : isOther l = false := by rw [← Bool.not_eq_true, isOther_iff]; exact ho
  rw [emitAt, if_pos ⟨l, List.mem_cons_self .., hl, ho⟩, List.filter_cons_of_pos hl,
    List.takeWhile_cons_of_neg (by rw [ho]; exact Bool.false_ne_true), List.getLastD_nil]

/-- What is left to emit when the lines `ls` are still to come. -/
def pending (s : Scan) (ls : List Text) : Except Failure Out :=
  if s.inZone then emitAt s.out s.zoneHeader s.prevline ls else .ok s.out

theorem scanLine_comment (s : Scan) (h : getLineType l = .comment) : scanLine s l = .ok s :=
  if_pos h

theorem scanLine_other (s : Scan) (h : getLineType l = .other) :
    scanLine s l = .ok { s with prevline := l } := by
  simp [scanLine, Scan.leave, Scan.enter, h, Except.map]

/-- The scan behind a line that stops a zone. -/
def Scan.behind (s : Scan) (l : Text) (out : Out) : Scan :=
  { s.enter (getLineType l) l with
    inZone := getLineType l = .zoneHeader
    prevline := l
    out }

theorem scanLine_stop (s : Scan) (hc : getLineType l ≠ .comment) (ho : getLineType l ≠ .other) :
    scanLine s l = (pending s (l :: ls)).map (s.behind l) := by
  obtain ⟨inZone, zoneHeader, prevline, out⟩ := s
  rw [scanLine, if_neg hc, pending, emitAt_stop hc ho, Scan.leave]
  by_cases hh : getLineType l = .zoneHeader
  · cases inZone with
    | false => simp [hh, Scan.enter, Scan.behind, Except.map]
    | true =>
      cases outZone out zoneHeader prevline <;> simp [hh, Scan.enter, Scan.behind, Except.map]
  · cases inZone with
    | false => simp [hh, Scan.enter, Scan.behind, Except.map]
    | true =>
      cases outZone out zoneHeader prevline <;> simp [hh, ho, Scan.enter, Scan.behind, Except.map]

theorem scan_eq (ls : List Text) (s : Scan) :
    (ls.foldlM scanLine s).map Scan.out =
      pending s ls >>= fun out => (zonesIn ls).foldlM emitZone out := by
  induction ls generalizing s with
  | nil =>
    obtain ⟨b, header, prev, out⟩ := s
    cases b <;> rfl
  | cons l ls ih =>
    rw [List.foldlM_cons]
    by_cases hc : getLineType l = .comment
    · rw [scanLine_comment s hc, zonesIn, if_neg (by rw [hc]; exact nofun), pending,
        emitAt_comment hc]
      exact ih s
    · by_cases ho : getLineType l = .other
      · rw [scanLine_other s ho, zonesIn, if_neg (by rw [ho]; exact nofun), pending,
          emitAt_other ho]
        exact ih { s with prevline := l }
      · rw [@scanLine_stop l ls s hc ho]
        cases pending s (l :: ls) with
        | error failure => rfl
        | ok out =>
          refine (ih (s.behind l out)).trans ?_
          by_cases hh : getLineType l = .zoneHeader
          · simp only [pending, Scan.behind, Scan.enter, hh, zonesIn, if_true, decide_true]
            rfl
          · simp only [pending, Scan.behind, Scan.enter, hh, zonesIn, if_false, decide_false]
            rfl

end scan

/-! ### What is collected -/

/-- The zones `zs` have been emitted and the links `ls` attached. -/
structure Holds (out : Out) (zs : List Zone) (ls : List Link) : Prop where
  names : out.names = zs.map Zone.name
  links : out.links = ls.map Link.name
  targets : ∀ l ∈ ls, l.target ∈ zs.map Zone.name
  entry : ∀ z ∈ zs, ∃ e, out.data z.name = some e ∧ offInSeconds z.offsetRead = some e.offset ∧
    e.links.getD [] = (ls.filter (·.target = z.name)).map Link.name
  absent : ∀ n, n ∉ zs.map Zone.name → out.data n = none

section collect
variable {out : Out} {zs : List Zone} {ls : List Link}

theorem holds_nil : Holds ⟨[], [], fun _ => none⟩ [] [] :=
  ⟨rfl, rfl, fun _ hl => absurd hl List.not_mem_nil, fun _ hz => absurd hz List.not_mem_nil,
    fun _ _ => rfl⟩

theorem Holds.emit (h : Holds out zs ls) {z : Zone} {offset : Int}
    (hoffset : offInSeconds z.offsetRead = some offset) (hz : z.name ∉ zs.map Zone.name) :
    Holds (out.emit z.name offset) (zs ++ [z]) ls := by
  refine ⟨?_, h.links, fun l hl => ?_, fun w hw => ?_, fun n hn => ?_⟩
  · rw [Out.emit_names, h.names, List.map_append, List.map_singleton]
  · rw [List.map_append]
    exact List.mem_append_left _ (h.targets l hl)
  · rcases List.mem_append.mp hw with hw | hw
    · have hne : w.name ≠ z.name := fun he => hz (he ▸ List.mem_map_of_mem hw)
      rw [Out.emit_data_of_ne _ _ _ hne]
      exact h.entry w hw
    · obtain rfl := List.mem_singleton.mp hw
      refine ⟨_, Out.emit_data_self .., hoffset, ?_⟩
      have hnone : ls.filter (·.target = w.name) = [] :=
        List.filter_eq_nil_iff.mpr fun l hl he => hz (of_decide_eq_true he ▸ h.targets l hl)
      rw [hnone]
      rfl
  · rw [List.map_append, List.mem_append, not_or] at hn
    have hne : n ≠ z.name := fun he => hn.2 (he ▸ List.mem_singleton_self _)
    rw [Out.emit_data_of_ne _ _ _ hne]
    exact h.absent n hn.1

theorem Holds.emitZone (h : Holds out zs ls) {z : Zone} (hwords : 3 ≤ (words z.header).length)
    (hz : z.name ∉ zs.map Zone.name) :
    GoesOnIff (z.Ended → offInSeconds z.offsetRead ≠ none)
      (Holds · (zs ++ [z].filter fun z => z.Ended) ls) (emitZone out z) := by
  unfold Tz.emitZone emitAt
  split_ifs with hended
  · have hsingle : [z].filter (fun z => z.Ended) = [z] :=
      List.filter_cons_of_pos (decide_eq_true hended)
    rw [hsingle]
    rcases outZone_eq hwords out z.lastRead with ⟨offset, hoffset, hout⟩ | ⟨hnone, _, hout⟩
    · rw [Zone.lastRead] at hout
      rw [hout]
      exact ⟨fun _ hnone => Option.some_ne_none _ (hoffset.symm.trans hnone), h.emit hoffset hz⟩
    · rw [Zone.lastRead] at hout
      rw [hout]
      exact fun hall => hall hended hnone
  · have hnil : [z].filter (fun z => z.Ended) = [] :=
      List.filter_cons_of_neg (fun hd => hended (of_decide_eq_true hd))
    rw [hnil, List.append_nil]
    exact ⟨fun he => absurd he hended, h⟩

theorem Holds.attach (h : Holds out zs ls) {link : Link} {z : Zone} {e : Entry} (hz : z ∈ zs)
    (htarget : link.target = z.name) (he : out.data link.target = some e) :
    Holds { out with
      links := out.links ++ [link.name]
      data := Function.update out.data link.target
        (some { e with links := some (e.links.getD [] ++ [link.name]) }) } zs (ls ++ [link]) := by
  refine ⟨h.names, ?_, fun l hl => ?_, fun w hw => ?_, fun n hn => ?_⟩
  · rw [List.map_append, ← h.links, List.map_singleton]
  · rcases List.mem_append.mp hl with hl | hl
    · exact h.targets l hl
    · obtain rfl := List.mem_singleton.mp hl
      exact htarget ▸ List.mem_map_of_mem hz
  · obtain ⟨d, hd, hoffset, hlinks⟩ := h.entry w hw
    by_cases hwz : link.target = w.name
    · rw [← hwz] at hd ⊢
      obtain rfl : e = d := Option.some.inj (he.symm.trans hd)
      have hone : [link].filter (·.target = link.target) = [link] :=
        List.filter_cons_of_pos (decide_eq_true rfl)
      refine ⟨_, Function.update_self .., hoffset, ?_⟩
      rw [Option.getD_some, hlinks, ← hwz, List.filter_append, List.map_append, hone]
      rfl
    · have hnone : [link].filter (·.target = w.name) = [] :=
        List.filter_cons_of_neg fun hd => hwz (of_decide_eq_true hd)
      refine ⟨d, ?_, hoffset, ?_⟩
      · exact (Function.update_of_ne (Ne.symm hwz) ..).trans hd
      · rw [hlinks, List.filter_append, hnone, List.append_nil]
  · have hne : n ≠ link.target := fun hn' => hn (hn' ▸ htarget ▸ List.mem_map_of_mem hz)
    exact (Function.update_of_ne hne ..).trans (h.absent n hn)

theorem linksIn_append (f g : List Text) : linksIn (f ++ g) = linksIn f ++ linksIn g := by
  rw [linksIn, List.filter_append, List.map_append]
  rfl

theorem linksIn_link {line : Text} (h : getLineType line = .link) :
    linksIn [line] = [⟨word line 1, word line 2⟩] := by
  have hone : [line].filter (getLineType · = .link) = [line] :=
    List.filter_cons_of_pos (decide_eq_true h)
  rw [linksIn, hone]
  rfl

theorem linksIn_of_ne {line : Text} (h : getLineType line ≠ .link) : linksIn [line] = [] := by
  have hnone : [line].filter (getLineType · = .link) = [] :=
    List.filter_cons_of_neg fun hd => h (of_decide_eq_true hd)
  rw [linksIn, hnone]
  rfl

theorem Holds.linkLine (h : Holds out zs ls) {line : Text}
    (hwords : getLineType line = .link → 3 ≤ (words line).length) :
    GoesOnIff (∀ l ∈ linksIn [line], l.target ∈ zs.map Zone.name)
      (Holds · zs (ls ++ linksIn [line])) (linkLine out line) := by
  unfold Tz.linkLine
  split_ifs with hlink
  · have htarget : item (words line) 1 = .ok (word line 1) :=
      item_of_lt (Nat.lt_of_lt_of_le (by omega) (hwords hlink))
    have hname : item (words line) 2 = .ok (word line 2) := item_of_lt (hwords hlink)
    rw [linksIn_link hlink, outLink, htarget, hname]
    simp only [bind, Except.bind, List.forall_mem_singleton]
    by_cases hmem : word line 1 ∈ zs.map Zone.name
    · obtain ⟨z, hz, hzname⟩ := List.mem_map.mp hmem
      obtain ⟨e, he, -, -⟩ := h.entry z hz
      rw [hzname] at he
      rw [he]
      exact ⟨hmem, @Holds.attach out zs ls h ⟨word line 1, word line 2⟩ z e hz hzname.symm he⟩
    · rw [h.absent _ hmem]
      exact hmem
  · rw [linksIn_of_ne hlink, List.append_nil]
    exact ⟨fun l hl => absurd hl List.not_mem_nil, h⟩

theorem header_of_mem_zonesIn {file : List Text} {z : Zone} (hz : z ∈ zonesIn file) :
    z.header ∈ file ∧ getLineType z.header = .zoneHeader := by
  induction file with
  | nil => exact absurd hz List.not_mem_nil
  | cons l ls ih =>
    rw [zonesIn] at hz
    split_ifs at hz with hh
    · rcases List.mem_cons.mp hz with rfl | hz
      · exact ⟨List.mem_cons_self .., hh⟩
      · exact ⟨List.mem_cons_of_mem _ (ih hz).1, (ih hz).2⟩
    · exact ⟨List.mem_cons_of_mem _ (ih hz).1, (ih hz).2⟩

theorem Holds.zones (h : Holds out zs ls) {new : List Zone}
    (hwords : ∀ z ∈ new, 3 ≤ (words z.header).length)
    (hnodup : ((zs ++ new).map Zone.name).Nodup) :
    GoesOnIff (∀ z ∈ new, z.Ended → offInSeconds z.offsetRead ≠ none)
      (Holds · (zs ++ new.filter fun z => z.Ended) ls) (new.foldlM Tz.emitZone out) := by
  have hfold := GoesOnIff.foldlM (f := Tz.emitZone) new (a := out)
    (I := fun pre out => Holds out (zs ++ pre.filter fun z => z.Ended) ls)
    (q := fun _ z => z.Ended → offInSeconds z.offsetRead ≠ none) ?_ (by simpa using h)
  · refine hfold.congr ⟨fun hall z hz => ?_, fun hall pre z post hnew => ?_⟩
    · obtain ⟨pre, post, hnew⟩ := List.append_of_mem hz
      exact hall pre z post hnew
    · exact hall z (by rw [hnew]; simp)
  · rintro pre z post out rfl hpre
    rw [List.filter_append, ← List.append_assoc]
    refine hpre.emitZone (hwords z (by simp)) fun hmem => ?_
    rw [List.map_append, List.map_append, List.map_cons, ← List.append_assoc] at hnodup
    refine (List.nodup_append.mp hnodup).2.2 z.name ?_ z.name (List.mem_cons_self ..) rfl
    have hsub : zs ++ pre.filter (fun z => z.Ended) ⊆ zs ++ pre :=
      List.append_subset.mpr ⟨List.subset_append_left ..,
        fun w hw => List.mem_append_right _ (List.mem_of_mem_filter hw)⟩
    rw [← List.map_append]
    exact List.map_subset _ hsub hmem

theorem mem_linksIn {file : List Text} {l : Link} :
    l ∈ linksIn file ↔ ∃ line ∈ file, l ∈ linksIn [line] := by
  induction file with
  | nil => simp [linksIn]
  | cons line file ih =>
    rw [← List.singleton_append, linksIn_append, List.mem_append, ih]
    simp

theorem Holds.linkLines (h : Holds out zs ls) {file : List Text}
    (hwords : ∀ l ∈ file, getLineType l = .link → 3 ≤ (words l).length) :
    GoesOnIff (∀ l ∈ linksIn file, l.target ∈ zs.map Zone.name)
      (Holds · zs (ls ++ linksIn file)) (file.foldlM Tz.linkLine out) := by
  have hfold := GoesOnIff.foldlM (f := Tz.linkLine) file (a := out)
    (I := fun pre out => Holds out zs (ls ++ linksIn pre))
    (q := fun _ line => ∀ l ∈ linksIn [line], l.target ∈ zs.map Zone.name) ?_
    (by simpa [linksIn] using h)
  · refine hfold.congr ⟨fun hall l hl => ?_, fun hall pre line post hfile l hl => ?_⟩
    · obtain ⟨line, hline, hl⟩ := mem_linksIn.mp hl
      obtain ⟨pre, post, hfile⟩ := List.append_of_mem hline
      exact hall pre line post hfile l hl
    · exact hall l (mem_linksIn.mpr ⟨line, by rw [hfile]; simp, hl⟩)
  · rintro pre line post out rfl hpre
    rw [linksIn_append, ← List.append_assoc]
    exact hpre.linkLine (hwords line (by simp))

/-- All that one file contributes. -/
theorem Holds.file (h : Holds out zs ls) {file : List Text}
    (hzones : ∀ l ∈ file, getLineType l = .zoneHeader → 3 ≤ (words l).length)
    (hlinks : ∀ l ∈ file, getLineType l = .link → 3 ≤ (words l).length)
    (hnodup : ((zs ++ zonesIn file).map Zone.name).Nodup) :
    GoesOnIff ((∀ z ∈ zonesIn file, z.Ended → offInSeconds z.offsetRead ≠ none) ∧
        ∀ l ∈ linksIn file, l.target ∈ (zs ++ (zonesIn file).filter fun z => z.Ended).map Zone.name)
      (Holds · (zs ++ (zonesIn file).filter fun z => z.Ended) (ls ++ linksIn file))
      (processZoneFile out file) := by
  have hscan : processZoneFile out file =
      (zonesIn file).foldlM Tz.emitZone out >>= file.foldlM Tz.linkLine := by
    have heq := scan_eq file ⟨false, [], [], out⟩
    have hout : pending ⟨false, [], [], out⟩ file = .ok out := rfl
    rw [hout] at heq
    change _ = (zonesIn file).foldlM Tz.emitZone out at heq
    rw [processZoneFile, ← heq]
    cases file.foldlM scanLine ⟨false, [], [], out⟩ <;> rfl
  have hwords : ∀ z ∈ zonesIn file, 3 ≤ (words z.header).length := fun z hz =>
    hzones _ (header_of_mem_zonesIn hz).1 (header_of_mem_zonesIn hz).2
  rw [hscan]
  exact (h.zones hwords hnodup).bind fun out hout => hout.linkLines hlinks

end collect

namespace Tzdata
variable {t : Tzdata}

/-- The zones that the program emits. -/
def emitted (files : List (List Text)) : List Zone :=
  (files.flatMap zonesIn).filter fun z => z.Ended

theorem emitted_concat (files : List (List Text)) (file : List Text) :
    emitted (files ++ [file]) = emitted files ++ (zonesIn file).filter fun z => z.Ended := by
  rw [emitted, List.flatMap_append, List.flatMap_singleton, List.filter_append]
  rfl

/-- Every file can be read behind the files before it. -/
def Readable (t : Tzdata) : Prop := ∀ pre file post, t.files = pre ++ file :: post →
  (∀ z ∈ zonesIn file, z.Ended → offInSeconds z.offsetRead ≠ none) ∧
    ∀ l ∈ linksIn file, l.target ∈ (emitted (pre ++ [file])).map Zone.name

theorem collect_files (t : Tzdata) :
    GoesOnIff t.Readable (Holds · (emitted t.files) t.links)
      (t.files.foldlM processZoneFile ⟨[], [], fun _ => none⟩) := by
  refine GoesOnIff.foldlM (I := fun pre out => Holds out (emitted pre) (pre.flatMap linksIn))
    (q := fun pre file => (∀ z ∈ zonesIn file, z.Ended → offInSeconds z.offsetRead ≠ none) ∧
      ∀ l ∈ linksIn file, l.target ∈ (emitted (pre ++ [file])).map Zone.name)
    t.files (fun pre file post out hfiles hpre => ?_) holds_nil
  have hfile : file ∈ t.files := by rw [hfiles]; simp
  rw [emitted_concat, List.flatMap_append, List.flatMap_singleton]
  refine hpre.file (t.zone_words file hfile) (t.link_words file hfile) ?_
  have hnodup := (List.nodup_append.mp t.nodup).1
  rw [hfiles, List.flatMap_append, List.flatMap_cons, ← List.append_assoc, List.map_append]
    at hnodup
  refine (List.nodup_append.mp hnodup).1.sublist (List.Sublist.map _ ?_)
  exact List.filter_sublist.append_right _

end Tzdata

theorem offsetKept_iff {z : Zone} :
    z.OffsetKept ↔
      ∃ o : GmtOff, o.text = z.offset ∧ offInSeconds z.offsetRead = some o.seconds := by
  constructor
  · rintro ⟨o, r, ho, hr, hkept, hlost⟩
    refine ⟨o, ho, ?_⟩
    rw [← hr]
    by_cases h : r.LosesSign
    · rw [r.offInSeconds_of_losesSign h, hlost h]
    · rw [r.offInSeconds_text_iff.mpr h, hkept h]
  · rintro ⟨o, ho, hread⟩
    have hform : ∃ r : GmtOff, r.text = z.offsetRead := by
      by_contra hnone
      rw [offInSeconds_eq_none_iff.mpr fun r hr => hnone ⟨r, hr⟩] at hread
      cases hread
    obtain ⟨r, hr⟩ := hform
    rw [← hr] at hread
    refine ⟨o, r, ho, hr, fun h => ?_, fun h => ?_⟩
    · exact Option.some.inj ((r.offInSeconds_text_iff.mpr h).symm.trans hread)
    · exact Option.some.inj ((r.offInSeconds_of_losesSign h).symm.trans hread)

theorem sort_perm (names : List Text) : names.mergeSort.Perm names := List.mergeSort_perm ..

theorem sort_sorted (names : List Text) : names.mergeSort.Pairwise (· ≤ ·) :=
  List.pairwise_mergeSort' (· ≤ ·) names

theorem emitted_eq_zones {t : Tzdata} (h : ∀ z ∈ t.zones, z.Ended) :
    Tzdata.emitted t.files = t.zones :=
  List.filter_eq_self.mpr fun z hz => decide_eq_true (h z hz)

theorem complete_of_holds {t : Tzdata} {last : Out} (h : Holds last t.zones t.links)
    (hoffsets : ∀ z ∈ t.zones, z.OffsetKept) :
    Complete t { last with names := last.names.mergeSort, links := last.links.mergeSort } := by
  have hdenotes : ∀ l ∈ t.links, ∀ z ∈ t.zones, l.target = z.name → t.Denotes l.name z.name :=
    fun l hl z hz htarget => .link hl (htarget ▸ .zone hz)
  refine ⟨?_, fun z hz => ?_, ?_, fun l hl => ?_, fun zone e he n hn => ?_, sort_sorted _,
    sort_sorted _⟩
  · exact h.names ▸ sort_perm last.names
  · obtain ⟨e, he, hread, -⟩ := h.entry z hz
    obtain ⟨o, ho, hseconds⟩ := offsetKept_iff.mp (hoffsets z hz)
    exact ⟨e, he, o, ho, Option.some.inj (hread.symm.trans hseconds)⟩
  · exact h.links ▸ sort_perm last.links
  · obtain ⟨z, hz, htarget⟩ := List.mem_map.mp (h.targets l hl)
    obtain ⟨e, he, -, hlinks⟩ := h.entry z hz
    refine ⟨z.name, e, hdenotes l hl z hz htarget.symm, he, ?_⟩
    rw [hlinks]
    exact List.mem_map_of_mem (List.mem_filter.mpr ⟨hl, decide_eq_true htarget.symm⟩)
  · by_cases hzone : zone ∈ t.zones.map Zone.name
    · obtain ⟨z, hz, rfl⟩ := List.mem_map.mp hzone
      obtain ⟨e', he', -, hlinks⟩ := h.entry z hz
      obtain rfl : e = e' := Option.some.inj (he.symm.trans he')
      rw [hlinks] at hn
      obtain ⟨l, hl, rfl⟩ := List.mem_map.mp hn
      obtain ⟨hl, htarget⟩ := List.mem_filter.mp hl
      exact hdenotes l hl z hz (of_decide_eq_true htarget)
    · exact nomatch (h.absent zone hzone).symm.trans he

/-- A zone that is missing is one that no line stopped. -/
theorem ended_of_complete {t : Tzdata} {last : Out}
    (h : Holds last (Tzdata.emitted t.files) t.links)
    (hzones : last.names.mergeSort.Perm (t.zones.map Zone.name)) : ∀ z ∈ t.zones, z.Ended := by
  have hlength := (hzones.symm.trans (sort_perm last.names)).length_eq
  rw [h.names, List.length_map, List.length_map] at hlength
  exact fun z hz => of_decide_eq_true (List.length_filter_eq_length_iff.mp hlength.symm z hz)

theorem readable_of_found {t : Tzdata} (hended : ∀ z ∈ t.zones, z.Ended)
    (hread : ∀ z ∈ t.zones, offInSeconds z.offsetRead ≠ none)
    (hlinks : ∀ pre file post, t.files = pre ++ file :: post → ∀ l ∈ linksIn file,
      ∃ z ∈ (pre ++ [file]).flatMap zonesIn, z.name = l.target) : t.Readable := by
  intro pre file post hfiles
  refine ⟨fun z hz _ => hread z ?_, fun l hl => ?_⟩
  · exact List.mem_flatMap.mpr ⟨file, by rw [hfiles]; simp, hz⟩
  · obtain ⟨z, hz, hname⟩ := hlinks pre file post hfiles l hl
    have hmem : z ∈ t.zones := by
      rw [Tzdata.zones, hfiles, List.append_cons, List.flatMap_append]
      exact List.mem_append_left _ hz
    rw [← hname]
    exact List.mem_map_of_mem (List.mem_filter.mpr ⟨hz, decide_eq_true (hended z hmem)⟩)

/-- `Z Etc/UTC 0` -/
def utc : Text := "Z Etc/UTC 0".toList

theorem words_utc : words utc = ["Z".toList, "Etc/UTC".toList, "0".toList] := rfl

theorem getLineType_utc : getLineType utc = .zoneHeader := rfl

theorem zonesIn_utc : zonesIn [utc] = [⟨utc, []⟩] := if_pos getLineType_utc

theorem linksIn_utc : linksIn [utc] = [] := linksIn_of_ne (by rw [getLineType_utc]; exact nofun)

/-- One file with one zone. -/
def utcOnly : Tzdata where
  files := [[utc]]
  zone_words := List.forall_mem_singleton.mpr <| List.forall_mem_singleton.mpr fun _ => by
    rw [words_utc]; exact le_rfl
  link_words := List.forall_mem_singleton.mpr <| List.forall_mem_singleton.mpr fun h => by
    rw [getLineType_utc] at h; cases h
  nodup := by
    rw [List.flatMap_singleton, List.flatMap_singleton, zonesIn_utc, linksIn_utc, List.map_nil,
      List.append_nil]
    exact List.nodup_singleton _

end Dir842.Tz
