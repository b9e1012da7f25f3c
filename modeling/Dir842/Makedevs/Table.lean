import Dir842.Kconfig.Symbol
import Dir842.Lib.Scan
import Mathlib.Tactic.Linarith

/-!
# Lines of a device table (`makedevs.c`)

A line is read with one `sscanf` into variables of the loop, which keep what they had where the
line has fewer fields. A counted line makes a node for every number from `start` on.
-/

namespace Dir842.Makedevs

open Kconfig (Text)
open Words

/-! ### `sscanf` -/

def isDigitOf (base : Nat) (c : Char) : Bool := c.isDigit && c.toNat - '0'.toNat < base

/-- What `strtoul` makes of a sign and digits; `unsigned long` has 64 bits. -/
def strtoul (neg : Bool) (n : Nat) : Nat :=
  if 2 ^ 64 ≤ n then 2 ^ 64 - 1 else if neg then (2 ^ 64 - n) % 2 ^ 64 else n

/-- `%u` and `%o` -/
def scanUnsigned (base : Nat) (s : Text) : Option (UInt32 × Text) :=
  let (neg, t) := splitSign (lstrip s)
  let ds := t.takeWhile (isDigitOf base)
  if ds = [] then none
  else some (.ofNat (strtoul neg (Nat.ofDigitChars base ds 0)), t.dropWhile (isDigitOf base))

/-- `%…s` -/
def scanWord (width : Nat) (s : Text) : Option (Text × Text) :=
  let w := ((lstrip s).takeWhile (!isSpace ·)).take width
  if w = [] then none else some (w, (lstrip s).drop w.length)

/-- `%c` behind a blank -/
def scanChar (s : Text) : Option (Char × Text) :=
  match lstrip s with
  | [] => none
  | c :: t => some (c, t)

/-- The variables of the loop over the lines. -/
structure Locals where
  name : Text
  type : Char
  mode : UInt32
  user : Text
  group : Text
  major : UInt32
  minor : UInt32
  start : UInt32
  increment : UInt32
  count : UInt32

/-- The fields that are converted. -/
structure Fields where
  name : Option Text := none
  type : Option Char := none
  mode : Option UInt32 := none
  user : Option Text := none
  group : Option Text := none
  major : Option UInt32 := none
  minor : Option UInt32 := none
  start : Option UInt32 := none
  increment : Option UInt32 := none
  count : Option UInt32 := none

structure Conversion where
  Val : Type
  read : Text → Option (Val × Text)
  store : Val → Fields → Fields

/-- `%4095s %c %o %40s %40s %u %u %u %u %u` -/
def conversions : List Conversion :=
  [⟨Text, scanWord 4095, fun v f => { f with name := v }⟩,
    ⟨Char, scanChar, fun v f => { f with type := v }⟩,
    ⟨UInt32, scanUnsigned 8, fun v f => { f with mode := v }⟩,
    ⟨Text, scanWord 40, fun v f => { f with user := v }⟩,
    ⟨Text, scanWord 40, fun v f => { f with group := v }⟩,
    ⟨UInt32, scanUnsigned 10, fun v f => { f with major := v }⟩,
    ⟨UInt32, scanUnsigned 10, fun v f => { f with minor := v }⟩,
    ⟨UInt32, scanUnsigned 10, fun v f => { f with start := v }⟩,
    ⟨UInt32, scanUnsigned 10, fun v f => { f with increment := v }⟩,
    ⟨UInt32, scanUnsigned 10, fun v f => { f with count := v }⟩]

/-- The number of conversions, up to the first that fails, and what they store. -/
def sscanf : List Conversion → Text → Nat × Fields → Nat × Fields
  | [], _, r => r
  | c :: cs, s, (n, f) =>
    match c.read s with
    | none => (n, f)
    | some (v, t) => sscanf cs t (n + 1, c.store v f)

def fields (line : Text) : Nat × Fields := sscanf conversions line (0, {})

/-- The initialisers at the head of the loop; `name`, `type`, `user` and `group` have none. -/
def Locals.declared (l : Locals) : Locals :=
  { l with mode := 0o755, major := 0, minor := 0, count := 0, increment := 0, start := 0 }

def Locals.store (l : Locals) (f : Fields) : Locals where
  name := f.name.getD l.name
  type := f.type.getD l.type
  mode := f.mode.getD l.mode
  user := f.user.getD l.user
  group := f.group.getD l.group
  major := f.major.getD l.major
  minor := f.minor.getD l.minor
  start := f.start.getD l.start
  increment := f.increment.getD l.increment
  count := f.count.getD l.count

def scanLine (line : Text) (l : Locals) : Nat × Locals :=
  ((fields line).1, l.declared.store (fields line).2)

/-- The line is neither blank nor invalid. -/
def accepted (r : Nat × Locals) : Bool :=
  !(2 > r.1 ||
    (r.2.major ||| r.2.minor ||| r.2.start ||| r.2.count ||| r.2.increment) > 0xfffff)

/-! ### Nodes -/

structure Node where
  path : Text
  major : Nat
  minor : Nat
deriving DecidableEq

/-- The loop over `i`, whose variables have 32 bits, with what it passes to `mknod`; a round and the
last test take fuel. -/
def nodeLoop (path : Text) (l : Locals) : Nat → UInt32 → Option (List Node)
  | 0, _ => none
  | fuel + 1, i =>
    if i ≤ l.start + l.count then
      (nodeLoop path l fuel (i + 1)).map
        (⟨if l.count ≠ 0 then path ++ Nat.toDigits 10 i.toNat else path, l.major.toNat,
          (l.minor + (i - l.start) * l.increment).toNat⟩ :: ·)
    else some []

def makeNodes (path : Text) (l : Locals) (fuel : Nat) : Option (List Node) :=
  nodeLoop path { l with count := if l.count ≠ 0 then l.count - 1 else l.count } fuel l.start

/-- `makedev` has 64 bits, and `mknod` gives `EINVAL` for a number that has more than 32, 12 for the
major number and 20 for the minor one. -/
def Node.fits (n : Node) : Bool := n.major < 2 ^ 12 && n.minor < 2 ^ 20

/-- `mknod`, with what the kernel makes of a path: whether it takes a new node with the mode of the
line there. -/
def mknod (admits : Text → Bool) (n : Node) : Bool := admits n.path && n.fits

/-- The nodes of the line; the loop goes on when `mknod` fails. -/
def madeNodes (admits : Text → Bool) (path : Text) (l : Locals) (fuel : Nat) : Option (List Node) :=
  (makeNodes path l fuel).map (·.filter (mknod admits))

/-! ### What the table means -/

/-- The nodes of a line, with unbounded numbers. -/
def nodes (path : Text) (l : Locals) : List Node :=
  (List.range (max l.count.toNat 1)).map fun k =>
    ⟨if l.count.toNat ≤ 1 then path else path ++ Nat.toDigits 10 (l.start.toNat + k),
      l.major.toNat, l.minor.toNat + k * l.increment.toNat⟩

/-! ### The loop -/

section
variable {path : Text} {l : Locals}

/-- Every number of an accepted line has 20 bits. -/
theorem bounds_of_accepted {r : Nat × Locals} (h : accepted r = true) :
    r.2.major.toNat ≤ 0xfffff ∧ r.2.minor.toNat ≤ 0xfffff ∧ r.2.start.toNat ≤ 0xfffff ∧
      r.2.count.toNat ≤ 0xfffff ∧ r.2.increment.toNat ≤ 0xfffff := by
  rw [accepted, Bool.not_eq_true', Bool.or_eq_false_iff, decide_eq_false_iff_not,
    decide_eq_false_iff_not, gt_iff_lt, gt_iff_lt, UInt32.lt_iff_toNat_lt, Nat.not_lt, Nat.not_lt]
    at h
  simp only [UInt32.toNat_or] at h
  have hor {a b n : Nat} (hab : a ||| b ≤ n) : a ≤ n ∧ b ≤ n :=
    ⟨Nat.left_le_or.trans hab, Nat.right_le_or.trans hab⟩
  obtain ⟨h, hincrement⟩ := hor h.2
  obtain ⟨h, hcount⟩ := hor h
  obtain ⟨h, hstart⟩ := hor h
  exact ⟨(hor h).1, (hor h).2, hstart, hcount, hincrement⟩

/-- The nodes that the loop makes: minor numbers are taken modulo `2 ^ 32`. -/
def wrappedNodes (path : Text) (l : Locals) : List Node :=
  (List.range (max l.count.toNat 1)).map fun k =>
    ⟨if l.count.toNat ≤ 1 then path else path ++ Nat.toDigits 10 (l.start.toNat + k),
      l.major.toNat, (l.minor.toNat + k * l.increment.toNat) % 2 ^ 32⟩

/-- With `m` numbers still to come, of those that the loop counts. -/
theorem nodeLoop_eq (hfit : l.start.toNat + l.count.toNat + 1 < 2 ^ 32) (fuel m : Nat)
    {i : UInt32} {k : Nat} (hi : i.toNat = l.start.toNat + k) (hm : k + m = l.count.toNat + 1) :
    nodeLoop path l fuel i =
      if m < fuel then
        some ((List.range m).map fun j =>
          ⟨if l.count ≠ 0 then path ++ Nat.toDigits 10 (l.start.toNat + (k + j)) else path,
            l.major.toNat, (l.minor.toNat + (k + j) * l.increment.toNat) % 2 ^ 32⟩)
      else none := by
  induction fuel generalizing m i k with
  | zero => rfl
  | succ fuel ih =>
    have hlast : (l.start + l.count).toNat = l.start.toNat + l.count.toNat := by
      rw [UInt32.toNat_add, Nat.mod_eq_of_lt (by omega)]
    rw [nodeLoop]
    cases m with
    | zero =>
      rw [if_neg (by rw [UInt32.le_iff_toNat_le, hlast]; omega), if_pos (Nat.succ_pos fuel)]
      rfl
    | succ m =>
      have hnext : (i + 1).toNat = l.start.toNat + (k + 1) := by
        rw [UInt32.toNat_add, UInt32.toNat_one, Nat.mod_eq_of_lt (by omega), hi]
        omega
      have hsub : (i - l.start).toNat = k := by
        rw [UInt32.toNat_sub_of_le _ _ (by rw [UInt32.le_iff_toNat_le]; omega), hi]
        omega
      have hminor : (l.minor + (i - l.start) * l.increment).toNat =
          (l.minor.toNat + k * l.increment.toNat) % 2 ^ 32 := by
        rw [UInt32.toNat_add, UInt32.toNat_mul, hsub, Nat.add_mod_mod]
      rw [if_pos (by rw [UInt32.le_iff_toNat_le, hlast]; omega), ih m hnext (by omega), hminor, hi]
      by_cases hfuel : m < fuel
      · rw [if_pos hfuel, if_pos (Nat.succ_lt_succ hfuel), Option.map_some, List.range_succ_eq_map,
          List.map_cons, List.map_map]
        simp only [Function.comp_def, Nat.add_zero, Nat.succ_eq_add_one, Nat.add_assoc,
          Nat.add_comm 1]
      · rw [if_neg hfuel, if_neg (fun h => hfuel (Nat.lt_of_succ_lt_succ h)), Option.map_none]

theorem makeNodes_eq {r : Nat × Locals} (h : accepted r = true) (path : Text) (fuel : Nat) :
    makeNodes path r.2 fuel =
      if max r.2.count.toNat 1 < fuel then some (wrappedNodes path r.2) else none := by
  obtain ⟨-, -, hstart, hcount, -⟩ := bounds_of_accepted h
  generalize r.2 = l at *
  rw [makeNodes]
  generalize hc : (if l.count ≠ 0 then l.count - 1 else l.count) = c
  have htoNat : c.toNat = l.count.toNat - 1 := by
    rw [← hc]
    split_ifs with hzero
    · have hpos : l.count.toNat ≠ 0 := fun h0 => hzero (UInt32.toNat_inj.mp h0)
      rw [UInt32.toNat_sub_of_le _ _ (by rw [UInt32.le_iff_toNat_le, UInt32.toNat_one]; omega),
        UInt32.toNat_one]
    · rw [not_not.mp hzero]
      rfl
  have hsuffix : c ≠ 0 ↔ ¬ l.count.toNat ≤ 1 := by
    rw [ne_eq, ← UInt32.toNat_inj, htoNat, UInt32.toNat_zero]
    omega
  have hfit : l.start.toNat + c.toNat + 1 < 2 ^ 32 := by omega
  have hrounds : 0 + max l.count.toNat 1 = c.toNat + 1 := by omega
  rw [@nodeLoop_eq path { l with count := c } hfit fuel _ l.start 0 rfl hrounds, wrappedNodes]
  simp only [hsuffix, Nat.zero_add, ite_not]

/-- The last number is the greatest one. -/
theorem forall_lt_iff (minor increment bound : Nat) {n : Nat} (hn : 0 < n) :
    (∀ k < n, minor + k * increment < bound) ↔ minor + (n - 1) * increment < bound := by
  constructor
  · intro hall
    exact hall (n - 1) (Nat.sub_one_lt_of_lt hn)
  · intro hlast k hk
    have hle : k * increment ≤ (n - 1) * increment :=
      Nat.mul_le_mul_right _ (Nat.le_sub_one_of_lt hk)
    exact Nat.lt_of_le_of_lt (Nat.add_le_add_left hle _) hlast

/-- The nodes are the right ones when `mknod` takes them. -/
theorem filter_wrappedNodes_iff (admits : Text → Bool) (path : Text) (l : Locals) :
    (wrappedNodes path l).filter (mknod admits) = nodes path l ↔
      ∀ n ∈ nodes path l, mknod admits n = true := by
  constructor
  · intro heq n hn
    rw [← heq] at hn
    exact (List.mem_filter.mp hn).2
  · intro hall
    have hwrapped : wrappedNodes path l = nodes path l := by
      rw [wrappedNodes, nodes, List.map_inj_left]
      intro k hk
      have hfits := (Bool.and_eq_true_iff.mp (hall _ (List.mem_map_of_mem hk))).2
      rw [Node.fits, Bool.and_eq_true, decide_eq_true_iff, decide_eq_true_iff] at hfits
      rw [Nat.mod_eq_of_lt (hfits.2.trans (by decide))]
    rw [hwrapped, List.filter_eq_self]
    exact hall

/-- The device numbers of a line fit, and the kernel takes its names. -/
structure Admitted (admits : Text → Bool) (path : Text) (l : Locals) : Prop where
  names : ∀ n ∈ nodes path l, admits n.path = true
  major : l.major.toNat < 2 ^ 12
  minor : l.minor.toNat + (max l.count.toNat 1 - 1) * l.increment.toNat < 2 ^ 20

theorem forall_mknod_iff (admits : Text → Bool) (path : Text) (l : Locals) :
    (∀ n ∈ nodes path l, mknod admits n = true) ↔ Admitted admits path l := by
  have hpos : 0 < max l.count.toNat 1 := Nat.lt_of_lt_of_le Nat.one_pos (Nat.le_max_right _ 1)
  have hnum : (∀ n ∈ nodes path l, n.fits = true) ↔ l.major.toNat < 2 ^ 12 ∧
      l.minor.toNat + (max l.count.toNat 1 - 1) * l.increment.toNat < 2 ^ 20 := by
    rw [← forall_lt_iff _ _ _ hpos]
    simp only [nodes, Node.fits, List.forall_mem_map, List.mem_range, Bool.and_eq_true,
      decide_eq_true_iff]
    exact ⟨fun h => ⟨(h 0 hpos).1, fun k hk => (h k hk).2⟩, fun h k hk => ⟨h.1, h.2 k hk⟩⟩
  constructor
  · intro h
    obtain ⟨hmajor, hminor⟩ := hnum.mp fun n hn => (Bool.and_eq_true_iff.mp (h n hn)).2
    exact ⟨fun n hn => (Bool.and_eq_true_iff.mp (h n hn)).1, hmajor, hminor⟩
  · intro h n hn
    exact Bool.and_eq_true_iff.mpr ⟨h.names n hn, hnum.mpr ⟨h.major, h.minor⟩ n hn⟩

/-- A line makes its nodes, in as many rounds, exactly when the kernel takes their names and
their numbers fit into a device number. -/
theorem makeNodes_iff (admits : Text → Bool) {line : Text} {old : Locals}
    (h : accepted (scanLine line old) = true) (path : Text) :
    let l := (scanLine line old).2
    (∀ fuel, madeNodes admits path l fuel =
        if max l.count.toNat 1 < fuel then some (nodes path l) else none) ↔
      Admitted admits path l := by
  intro l
  rw [← forall_mknod_iff, ← filter_wrappedNodes_iff]
  constructor
  · intro hall
    have hsucc := hall (max l.count.toNat 1 + 1)
    rw [madeNodes, makeNodes_eq h, if_pos (Nat.lt_succ_self _), if_pos (Nat.lt_succ_self _)] at hsucc
    exact Option.some.inj hsucc
  · intro heq fuel
    rw [madeNodes, makeNodes_eq h]
    split_ifs
    · exact congrArg some heq
    · rfl

end

/-! ### Two lines -/

def noLocals : Locals := ⟨[], ' ', 0, [], [], 0, 0, 0, 0, 0⟩

/-- `/dev/hda b 640 0 0 3 1 1 1 15` -/
def hda : Text := "/dev/hda b 640 0 0 3 1 1 1 15".toList

theorem scanLine_hda : scanLine hda noLocals =
    (10, ⟨"/dev/hda".toList, 'b', 0o640, ['0'], ['0'], 3, 1, 1, 1, 15⟩) := rfl

theorem makeNodes_hda :
    let l := (scanLine hda noLocals).2
    (∀ fuel, madeNodes (fun _ => true) l.name l fuel =
        if max l.count.toNat 1 < fuel then some (nodes l.name l) else none) ↔
      Admitted (fun _ => true) l.name l :=
  makeNodes_iff (fun _ => true) (by rw [scanLine_hda]; rfl) (scanLine hda noLocals).2.name

/-- `/dev/x c 666 0 0 1 0 0 1048575 4098` -/
def wide : Text := "/dev/x c 666 0 0 1 0 0 1048575 4098".toList

theorem scanLine_wide : scanLine wide noLocals =
    (10, ⟨"/dev/x".toList, 'c', 0o666, ['0'], ['0'], 1, 0, 0, 1048575, 4098⟩) := rfl

/-- Every field is in range, and the last minor number is not. -/
theorem not_makeNodes :
    ¬ ∀ (line : Text) (old : Locals) (path : Text), accepted (scanLine line old) = true →
      let l := (scanLine line old).2
      ∀ fuel, madeNodes (fun _ => true) path l fuel =
        if max l.count.toNat 1 < fuel then some (nodes path l) else none := by
  intro h
  have haccepted : accepted (scanLine wide noLocals) = true := by rw [scanLine_wide]; rfl
  have hminor := ((makeNodes_iff (fun _ => true) haccepted []).mp
    (h wide noLocals [] haccepted)).minor
  rw [scanLine_wide] at hminor
  exact absurd hminor (by decide)

end Dir842.Makedevs
