import Dir842.Makedevs.Table
import Mathlib.Algebra.Order.BigOperators.Group.List

/-!
# The loop over the table (`makedevs.c`)

What the lines of a table pass to `chown`, `chmod` and `mknod`. The file tree and the results of the
calls are those at the time of the line; the variables that a line does not set are those of the
lines before.
-/

namespace Dir842.Makedevs

open Kconfig (Text)
open Words

inductive Call
  | chown (path : Text) (uid gid : UInt32)
  | chmod (path : Text) (mode : UInt32)
  | mknod (path : Text) (mode : UInt32) (node : Node)

/-- The file tree and the kernel, when a line is read. -/
structure System where
  /-- `bb_make_directory` makes the directory, and does not find it. -/
  created : Text → Bool
  /-- `stat` finds a regular file. -/
  regular : Text → Bool
  /-- What `nftw` visits. -/
  tree : Text → List Text
  succeeds : Call → Bool
  /-- `bb_set_xattr` is there, and succeeds. -/
  setXattr : Text → Bool

/-- The command line, the process and the files `etc/passwd` and `etc/group`. -/
structure Env where
  rootdir : Text
  uid : UInt32
  gid : UInt32
  passwd : List (Text × Nat)
  group : List (Text × Nat)

/-- `get_ug_id`; `none` ends the process. -/
def getUgId (db : List (Text × Nat)) (s : Text) : Option UInt32 :=
  let (neg, t) := splitSign (lstrip s)
  if t ≠ [] ∧ t.all (isDigitOf 10) then some (.ofNat (strtoul neg (Nat.ofDigitChars 10 t 0)))
  else (db.lookup s).map .ofNat

def Env.gidOf (env : Env) (group : Text) : Option UInt32 :=
  if group ≠ [] then getUgId env.group group else some env.gid

def Env.uidOf (env : Env) (user : Text) : Option UInt32 :=
  if user ≠ [] then getUgId env.passwd user else some env.uid

def concatPathFile (path filename : Text) : Text :=
  path ++ (if path.getLast? = some '/' then [] else ['/']) ++ filename.dropWhile (· = '/')

/-- `" |xattr %254s"` -/
def xattrOf (line : Text) : Option Text :=
  if "|xattr".toList.isPrefixOf (lstrip line) then
    (scanWord 254 ((lstrip line).drop 6)).map Prod.fst
  else none

def S_IFDIR : UInt32 := 0o040000
def S_IFIFO : UInt32 := 0o010000
def S_IFCHR : UInt32 := 0o020000
def S_IFBLK : UInt32 := 0o060000

/-- `(mode != -1)` -/
def hasMode (mode : UInt32) : Bool := mode ≠ 0xffffffff

section calls
variable (sys : System) (uid gid : UInt32) (mode : UInt32)

/-- `chown`, and `chmod` if it succeeds. -/
def ownCalls (path : Text) : List Call :=
  .chown path uid gid ::
    if sys.succeeds (.chown path uid gid) && hasMode mode then [.chmod path mode] else []

/-- `bb_recursive` at every path, until it fails. -/
def recursiveCalls : List Text → List Call
  | [] => []
  | path :: paths =>
    ownCalls sys uid gid mode path ++
      if (ownCalls sys uid gid mode path).all sys.succeeds then recursiveCalls paths else []

def nodeCalls (node : Node) : List Call :=
  .mknod node.path mode node ::
    if sys.succeeds (.mknod node.path mode node) then
      .chown node.path uid gid ::
        if sys.succeeds (.chown node.path uid gid) then [.chmod node.path mode] else []
    else []

/-- The fuel is enough for the loop. -/
def deviceCalls (path : Text) (l : Locals) : List Call :=
  ((makeNodes path l (l.count.toNat + 2)).getD []).flatMap (nodeCalls sys uid gid mode)

end calls

/-- The branches for the types. -/
def typeCalls (sys : System) (path : Text) (uid gid : UInt32) (l : Locals) : List Call :=
  match l.type with
  | 'd' =>
    (if sys.created path then [.chmod path (l.mode ||| S_IFDIR)] else []) ++
      ownCalls sys uid gid l.mode path
  | 'f' | 'F' => if sys.regular path then ownCalls sys uid gid l.mode path else []
  | 'r' => recursiveCalls sys uid gid l.mode (sys.tree path)
  | 'p' => deviceCalls sys uid gid (l.mode ||| S_IFIFO) path l
  | 'c' => deviceCalls sys uid gid (l.mode ||| S_IFCHR) path l
  | 'b' => deviceCalls sys uid gid (l.mode ||| S_IFBLK) path l
  | _ => []

/-- The line is accepted and no comment. -/
def isEntry (r : Nat × Locals) : Bool := accepted r && r.2.name.head? ≠ some '#'

def ids (env : Env) (l : Locals) : Option (UInt32 × UInt32) := do
  let gid ← env.gidOf l.group
  let uid ← env.uidOf l.user
  return (uid, gid)

/-- The calls of a line. -/
def lineCalls (env : Env) (sys : System) (line : Text) (old : Locals) : List Call :=
  if xattrOf line ≠ none ∨ isEntry (scanLine line old) = false then []
  else
    match ids env (scanLine line old).2 with
    | none => []
    | some (uid, gid) =>
      typeCalls sys (concatPathFile env.rootdir (scanLine line old).2.name) uid gid
        (scanLine line old).2

/-- The variables after a line; `none` when the process has ended. -/
def lineNext (env : Env) (sys : System) (line : Text) (old : Locals) : Option Locals :=
  match xattrOf line with
  | some xattr => if sys.setXattr xattr then some old.declared else none
  | none =>
    if isEntry (scanLine line old) then
      (ids env (scanLine line old).2).map fun _ => (scanLine line old).2
    else some (scanLine line old).2

/-- The variables when the lines of a table have been read. -/
def readTable (env : Env) (old : Locals) : List (Text × System) → Option Locals
  | [] => some old
  | (line, sys) :: table => (lineNext env sys line old).bind fun l => readTable env l table

/-- The calls of a line are the same behind any two tables; the stack has any content at first. -/
def Independent (env : Env) (sys : System) (line : Text) : Prop :=
  ∀ old old' table table' l l', readTable env old table = some l →
    readTable env old' table' = some l' →
    lineCalls env sys line l = lineCalls env sys line l'

/-! ### What the fields leave open -/

theorem sscanf_keeps {P : Fields → Prop} {cs : List Conversion}
    (h : ∀ c ∈ cs, ∀ v f, P f → P (c.store v f)) (s : Text) (n : Nat) {f : Fields} (hf : P f) :
    P (sscanf cs s (n, f)).2 := by
  induction cs generalizing s n f with
  | nil => exact hf
  | cons c cs ih =>
    rw [sscanf]
    split
    · exact hf
    · exact ih (fun d hd => h d (List.mem_cons_of_mem _ hd)) _ _
        (h c (List.mem_cons_self ..) _ _ hf)

/-- Two conversions are the name and the type. -/
theorem exists_of_two_le {line : Text} (h : 2 ≤ (fields line).1) :
    ∃ name type, (fields line).2.name = some name ∧ (fields line).2.type = some type := by
  revert h
  unfold fields conversions
  rw [sscanf]
  split
  · intro h
    cases h
  · rw [sscanf]
    split
    · intro h
      exact absurd h (Nat.not_le.mpr Nat.one_lt_two)
    · intro _
      refine sscanf_keeps (P := fun f => ∃ name type, f.name = some name ∧ f.type = some type) ?_
        _ _ ⟨_, _, rfl, rfl⟩
      simp only [List.forall_mem_cons]
      exact ⟨fun _ _ h => h, fun _ _ h => h, fun _ _ h => h, fun _ _ h => h, fun _ _ h => h,
        fun _ _ h => h, fun _ _ h => h, fun _ _ h => h, List.forall_mem_nil _⟩

/-- The group comes behind the user. -/
theorem exists_user {line : Text} (h : ∃ group, (fields line).2.group = some group) :
    ∃ user, (fields line).2.user = some user := by
  revert h
  unfold fields conversions
  iterate 4
    rw [sscanf]
    split
    · rintro ⟨group, h⟩
      cases h
  intro _
  refine sscanf_keeps (P := fun f => ∃ user, f.user = some user) ?_ _ _ ⟨_, rfl⟩
  simp only [List.forall_mem_cons]
  exact ⟨fun _ _ h => h, fun _ _ h => h, fun _ _ h => h, fun _ _ h => h, fun _ _ h => h,
    fun _ _ h => h, List.forall_mem_nil _⟩

section
variable {env : Env} {sys : System} {line : Text}

theorem two_le_of_accepted {r : Nat × Locals} (h : accepted r = true) : 2 ≤ r.1 := by
  rw [accepted, Bool.not_eq_true', Bool.or_eq_false_iff, decide_eq_false_iff_not, gt_iff_lt,
    Nat.not_lt] at h
  exact h.1

theorem accepted_of_isEntry {r : Nat × Locals} (h : isEntry r = true) : accepted r = true :=
  (Bool.and_eq_true_iff.mp h).1

/-- The name and the type of an accepted line are its own. -/
theorem scanLine_own (h : accepted (scanLine line noLocals) = true) (old : Locals) :
    (scanLine line old).2.name = (scanLine line noLocals).2.name ∧
      (scanLine line old).2.type = (scanLine line noLocals).2.type := by
  obtain ⟨name, type, hname, htype⟩ := exists_of_two_le (two_le_of_accepted h)
  simp only [scanLine, Locals.store, hname, htype, Option.getD_some, and_self]

theorem isEntry_eq (line : Text) (old : Locals) :
    isEntry (scanLine line old) = isEntry (scanLine line noLocals) := by
  have haccepted : accepted (scanLine line old) = accepted (scanLine line noLocals) := rfl
  cases h : accepted (scanLine line noLocals) with
  | false => rw [isEntry, isEntry, haccepted, h, Bool.false_and, Bool.false_and]
  | true => rw [isEntry, isEntry, haccepted, (scanLine_own h old).1]

/-- With a group on the line nothing is left from the lines before. -/
theorem scanLine_eq (h : isEntry (scanLine line noLocals) = true)
    (hgroup : ∃ group, (fields line).2.group = some group) (old old' : Locals) :
    scanLine line old = scanLine line old' := by
  obtain ⟨name, type, hname, htype⟩ := exists_of_two_le (two_le_of_accepted (accepted_of_isEntry h))
  obtain ⟨user, huser⟩ := exists_user hgroup
  obtain ⟨group, hgroup⟩ := hgroup
  simp only [scanLine, Locals.store, Locals.declared, hname, htype, huser, hgroup,
    Option.getD_some]

/-! ### Lines that call something -/

/-- The branch of the type gets to a call. -/
def Calling (sys : System) (path : Text) (type : Char) : Prop :=
  match type with
  | 'd' => True
  | 'f' | 'F' => sys.regular path = true
  | 'r' => sys.tree path ≠ []
  | 'p' | 'c' | 'b' => True
  | _ => False

theorem deviceCalls_ne_nil {r : Nat × Locals} (h : accepted r = true) (uid gid mode : UInt32)
    (path : Text) : deviceCalls sys uid gid mode path r.2 ≠ [] := by
  have hfuel : max r.2.count.toNat 1 < r.2.count.toNat + 2 := by omega
  obtain ⟨n, hn⟩ := Nat.exists_eq_add_of_le' (Nat.le_max_right r.2.count.toNat 1)
  rw [deviceCalls, makeNodes_eq h, if_pos hfuel, Option.getD_some, wrappedNodes, hn,
    List.range_succ_eq_map, List.map_cons, List.flatMap_cons]
  exact List.cons_ne_nil _ _

theorem ite_cons_ne_nil {p : Prop} [Decidable p] {c : Call} {cs : List Call} :
    (if p then c :: cs else []) ≠ [] ↔ p := by
  split_ifs with hp
  · exact iff_of_true (List.cons_ne_nil _ _) hp
  · exact iff_of_false (fun h => h rfl) hp

theorem typeCalls_ne_nil_iff {r : Nat × Locals} (h : accepted r = true) (path : Text)
    (uid gid : UInt32) : typeCalls sys path uid gid r.2 ≠ [] ↔ Calling sys path r.2.type := by
  unfold typeCalls Calling
  split
  · exact iff_of_true (List.append_ne_nil_of_right_ne_nil _ (List.cons_ne_nil _ _)) trivial
  · exact ite_cons_ne_nil
  · exact ite_cons_ne_nil
  · cases sys.tree path with
    | nil => exact iff_of_false (fun hnil => hnil rfl) fun hnil => hnil rfl
    | cons p ps => exact iff_of_true (List.cons_ne_nil _ _) (List.cons_ne_nil _ _)
  · exact iff_of_true (deviceCalls_ne_nil h uid gid _ path) trivial
  · exact iff_of_true (deviceCalls_ne_nil h uid gid _ path) trivial
  · exact iff_of_true (deviceCalls_ne_nil h uid gid _ path) trivial
  · exact iff_of_false (fun hnil => hnil rfl) id

/-! ### Users and groups -/

/-- There is always a name that no file knows. -/
theorem exists_unknown (db : List (Text × Nat)) : ∃ s, s ≠ [] ∧ getUgId db s = none := by
  refine ⟨List.replicate ((db.map (·.1.length)).sum + 1) 'x', List.cons_ne_nil _ _, ?_⟩
  have hlookup : db.lookup (List.replicate ((db.map (·.1.length)).sum + 1) 'x') = none := by
    rw [List.lookup_eq_none_iff]
    intro entry hentry
    have hle : entry.1.length ≤ (db.map (·.1.length)).sum :=
      List.single_le_sum (fun _ _ => Nat.zero_le _) _ (List.mem_map_of_mem hentry)
    rw [bne_iff_ne]
    intro heq
    have hlength := congrArg List.length heq
    rw [List.length_replicate] at hlength
    omega
  rw [getUgId, hlookup]
  exact if_neg fun hdigits => absurd hdigits.2 Bool.false_ne_true

/-- The line is an entry whose branch gets to a call. -/
def Calls (env : Env) (sys : System) (line : Text) : Prop :=
  xattrOf line = none ∧ isEntry (scanLine line noLocals) = true ∧
    Calling sys (concatPathFile env.rootdir (scanLine line noLocals).2.name)
      (scanLine line noLocals).2.type

theorem lineCalls_of_ids_none {old : Locals} (h : ids env (scanLine line old).2 = none) :
    lineCalls env sys line old = [] := by
  rw [lineCalls, h]
  exact ite_self _

theorem lineCalls_ne_nil_iff (old : Locals) :
    lineCalls env sys line old ≠ [] ↔
      Calls env sys line ∧ ids env (scanLine line old).2 ≠ none := by
  by_cases hentry : xattrOf line ≠ none ∨ isEntry (scanLine line old) = false
  · rw [lineCalls, if_pos hentry]
    refine iff_of_false (fun h => h rfl) fun h => ?_
    rw [isEntry_eq] at hentry
    rcases hentry with hentry | hentry
    · exact hentry h.1.1
    · exact absurd (hentry.symm.trans h.1.2.1) Bool.false_ne_true
  · rw [lineCalls, if_neg hentry]
    rw [not_or, not_not, Bool.not_eq_false] at hentry
    have haccepted := accepted_of_isEntry hentry.2
    cases hids : ids env (scanLine line old).2 with
    | none => exact iff_of_false (fun h => h rfl) fun h => h.2 rfl
    | some id =>
      obtain ⟨hname, htype⟩ := @scanLine_own line haccepted old
      refine (typeCalls_ne_nil_iff haccepted _ _ _).trans ?_
      rw [hname, htype]
      exact ⟨fun h => ⟨⟨hentry.1, (isEntry_eq line old).symm.trans hentry.2, h⟩,
        Option.some_ne_none id⟩, fun h => h.1.2.2⟩

theorem ids_eq_none_iff {l : Locals} :
    ids env l = none ↔ env.gidOf l.group = none ∨ env.uidOf l.user = none := by
  rw [ids]
  cases env.gidOf l.group with
  | none => exact iff_of_true rfl (.inl rfl)
  | some gid =>
    cases env.uidOf l.user with
    | none => exact iff_of_true rfl (.inr rfl)
    | some uid =>
      exact iff_of_false (Option.some_ne_none _)
        fun h => h.elim (Option.some_ne_none _) (Option.some_ne_none _)

theorem lineCalls_of_not_calls (h : ¬ Calls env sys line) (old : Locals) :
    lineCalls env sys line old = [] :=
  not_not.mp fun hne => h ((lineCalls_ne_nil_iff old).mp hne).1

theorem gidOf_zero : env.gidOf ['0'] = some 0 := rfl

theorem uidOf_zero : env.uidOf ['0'] = some 0 := rfl

/-- A line without a group is at the mercy of what stands in its place on the stack: an unknown
group in one run, a known one in the other. -/
theorem not_independent_of_no_group {env : Env} {sys : System} {line : Text}
    (hcalls : Calls env sys line) (hgroup : (fields line).2.group = none)
    (huser : ∀ user, (fields line).2.user = some user → env.uidOf user ≠ none) :
    ¬ Independent env sys line := by
  intro h
  obtain ⟨unknown, hne, hunknown⟩ := exists_unknown env.group
  have heq := h { noLocals with group := unknown } { noLocals with user := ['0'], group := ['0'] }
    [] [] _ _ rfl rfl
  have hnone : ids env (scanLine line { noLocals with group := unknown }).2 = none := by
    refine ids_eq_none_iff.mpr (.inl ?_)
    simp only [scanLine, Locals.store, Locals.declared, hgroup, Option.getD_none]
    rw [Env.gidOf, if_pos hne, hunknown]
  have hsome :
      ids env (scanLine line { noLocals with user := ['0'], group := ['0'] }).2 ≠ none := by
    rw [ne_eq, ids_eq_none_iff, not_or]
    simp only [scanLine, Locals.store, Locals.declared, hgroup, Option.getD_none]
    refine ⟨by rw [gidOf_zero]; exact Option.some_ne_none 0, ?_⟩
    cases hu : (fields line).2.user with
    | none => rw [Option.getD_none, uidOf_zero]; exact Option.some_ne_none 0
    | some user => exact huser user hu
  rw [lineCalls_of_ids_none hnone] at heq
  exact (lineCalls_ne_nil_iff _).mpr ⟨hcalls, hsome⟩ heq.symm

/-- A line's calls are its own exactly when it makes none, names a group or names a user that is
not known. -/
theorem independent_iff (env : Env) (sys : System) (line : Text) :
    Independent env sys line ↔
      ¬ Calls env sys line ∨ (∃ group, (fields line).2.group = some group) ∨
        ∃ user, (fields line).2.user = some user ∧ env.uidOf user = none := by
  constructor
  · intro h
    by_contra hcond
    rw [not_or, not_or, not_not, not_exists, not_exists] at hcond
    obtain ⟨hcalls, hgroup, huser⟩ := hcond
    exact not_independent_of_no_group hcalls (Option.eq_none_iff_forall_ne_some.mpr hgroup)
      (fun user hu hnone => huser user ⟨hu, hnone⟩) h
  · rintro h old old' table table' l l' - -
    rcases h with h | h | ⟨user, huser, hnone⟩
    · rw [lineCalls_of_not_calls h, lineCalls_of_not_calls h]
    · by_cases hcalls : Calls env sys line
      · rw [lineCalls, lineCalls, scanLine_eq hcalls.2.1 h l l']
      · rw [lineCalls_of_not_calls hcalls, lineCalls_of_not_calls hcalls]
    · have hids : ∀ old, ids env (scanLine line old).2 = none := fun old => by
        refine ids_eq_none_iff.mpr (.inr ?_)
        simp only [scanLine, Locals.store, huser, Option.getD_some]
        exact hnone
      rw [lineCalls_of_ids_none (hids l), lineCalls_of_ids_none (hids l')]

end

/-! ### Two tables -/

def root : Env := ⟨['/'], 0, 0, [], []⟩

def obedient : System :=
  ⟨fun _ => false, fun _ => false, fun _ => [], fun _ => true, fun _ => false⟩

/-- `/dev d 755` -/
def short : Text := "/dev d 755".toList

/-- `#x c 0 0 7`, and the same with group 8 -/
def comment (group : Char) : Text := "#x c 0 0 ".toList ++ [group]

def behind (group : Char) : Locals := ⟨['#', 'x'], 'c', 0, ['0'], [group], 0, 0, 0, 0, 0⟩

theorem readTable_seven :
    readTable root noLocals [(comment '7', obedient)] = some (behind '7') := rfl

theorem readTable_eight :
    readTable root noLocals [(comment '8', obedient)] = some (behind '8') := rfl

theorem lineCalls_seven : lineCalls root obedient short (behind '7') =
    [.chown "/dev".toList 0 7, .chmod "/dev".toList 0o755] := rfl

theorem lineCalls_eight : lineCalls root obedient short (behind '8') =
    [.chown "/dev".toList 0 8, .chmod "/dev".toList 0o755] := rfl

/-- A comment decides whom the directory belongs to. -/
theorem not_independent :
    ¬ ∀ (env : Env) (sys : System) (line : Text), Independent env sys line := by
  intro h
  have heq := h root obedient short noLocals noLocals _ _ _ _ readTable_seven readTable_eight
  rw [lineCalls_seven, lineCalls_eight, List.cons.injEq, Call.chown.injEq] at heq
  exact absurd heq.1.2.2 (by decide)

end Dir842.Makedevs
