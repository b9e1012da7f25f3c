import Dir842.Lua.SubExpr

/-!
# Leaving parentheses out

A tree of Lua in which some parentheses are marked, and when it is read as the same expression
without them.
-/

namespace Dir842.LuaSyntax

mutual

inductive Marked
  | atom (a : Atom)
  | vararg
  | name (x : String)
  /-- Parentheses that are left out, or not. -/
  | paren (out : Bool) (c : Marked)
  | unop (o : UnOp) (c : Marked)
  | binop (o : BinOp) (a b : Marked)
  | index (c k : Marked)
  | dot (c : Marked) (x : String)
  | call (c : Marked) (m : Option String) (args : Markeds)
  | callAtom (c : Marked) (m : Option String) (a : Atom)

inductive Markeds
  | nil
  | cons (c : Marked) (cs : Markeds)

end

section
variable (drop : Bool)

mutual

/-- The tree with the marked parentheses, or without them. -/
def Marked.tree : Marked → Cst
  | .atom a => .atom a
  | .vararg => .vararg
  | .name x => .name x
  | .paren out c => if drop && out then c.tree else .paren c.tree
  | .unop o c => .unop o c.tree
  | .binop o a b => .binop o a.tree b.tree
  | .index c k => .index c.tree k.tree
  | .dot c x => .dot c.tree x
  | .call c m args => .call c.tree m args.tree
  | .callAtom c m a => .callAtom c.tree m a

def Markeds.tree : Markeds → Csts
  | .nil => .nil
  | .cons c cs => .cons c.tree cs.tree

end

end

/-! ### The places of a tree -/

inductive Kind
  | literal
  | vararg
  /-- A name, or an index, or something in parentheses. -/
  | ref
  | call
  | unary
  | binary (o : BinOp)

namespace Kind

def multi : Kind → Bool
  | vararg | call => true
  | _ => false

def IsPrefix : Kind → Prop
  | ref | call => True
  | _ => False

def Above (limit : ℕ) : Kind → Prop
  | binary o => limit < o.left
  | _ => True

def Closed (left : ℕ) : Kind → Prop
  | binary o => left ≤ o.right
  | unary => left ≤ unaryPriority
  | _ => True

end Kind

inductive Place
  /-- All the values are passed on. -/
  | whole
  /-- One value is passed on. -/
  | inner
  | target
  | operand
  | left (o : BinOp)
  | right (o : BinOp)

namespace Place

/-- What is of this kind is read in the place in one piece. -/
def Takes : Place → Kind → Prop
  | whole, _ | inner, _ => True
  | target, k => k.IsPrefix
  | operand, k => k.Above unaryPriority
  | left o, k => k.Closed o.left
  | right o, k => k.Above o.right

/-- Parentheses around it may be left out in the place. -/
def Admits (p : Place) (k : Kind) : Prop := p.Takes k ∧ (p = whole → k.multi = false)

end Place

/-- The kind of the tree that is left. -/
def Marked.kind : Marked → Kind
  | .atom _ => .literal
  | .vararg => .vararg
  | .name _ | .index .. | .dot .. => .ref
  | .paren out c => if out then c.kind else .ref
  | .unop .. => .unary
  | .binop o _ _ => .binary o
  | .call .. | .callAtom .. => .call

/-- The place of an argument before others. -/
def Markeds.place : Markeds → Place
  | .nil => .whole
  | .cons .. => .inner

mutual

/-- Wherever parentheses are left out, they may be. -/
def Marked.Safe : Place → Marked → Prop
  | _, .atom _ | _, .vararg | _, .name _ => True
  | p, .paren out c => (out = true → p.Admits c.kind) ∧ c.Safe .inner
  | _, .unop _ c => c.Safe .operand
  | _, .binop o a b => a.Safe (.left o) ∧ b.Safe (.right o)
  | _, .index c k => c.Safe .target ∧ k.Safe .inner
  | _, .dot c _ => c.Safe .target
  | _, .call c _ args => c.Safe .target ∧ args.Safe
  | _, .callAtom c _ _ => c.Safe .target

def Markeds.Safe : Markeds → Prop
  | .nil => True
  | .cons c cs => c.Safe cs.place ∧ cs.Safe

end

/-! ### Trees that can be read as each other -/

def Cst.kind : Cst → Kind
  | .atom _ => .literal
  | .vararg => .vararg
  | .name _ | .paren _ | .index .. | .dot .. => .ref
  | .unop .. => .unary
  | .binop o _ _ => .binary o
  | .call .. | .callAtom .. => .call

theorem kind_tree : ∀ m : Marked, (m.tree true).kind = m.kind
  | .atom _ | .vararg | .name _ | .unop .. | .binop .. | .index .. | .dot .. | .call ..
  | .callAtom .. => rfl
  | .paren out c => by
    cases out with
    | false => rfl
    | true => exact kind_tree c

theorem multi_kind (c : Cst) : c.kind.multi = c.multi := by cases c <;> rfl

theorem isPrefix_kind (c : Cst) : c.kind.IsPrefix ↔ c.IsPrefix := by cases c <;> exact Iff.rfl

theorem above_kind (c : Cst) (limit : ℕ) : c.kind.Above limit ↔ c.Above limit := by
  cases c <;> exact Iff.rfl

theorem closed_kind (c : Cst) (left : ℕ) : c.kind.Closed left ↔ c.Closed left := by
  cases c <;> exact Iff.rfl

/-- A tree that is read from its tokens in the place. -/
def Place.Fits (p : Place) (c : Cst) : Prop := c.Ok ∧ p.Takes c.kind

/-- `c` is read in the place of `c'`, and as the same. -/
structure Place.Agrees (p : Place) (c c' : Cst) : Prop where
  fits : p.Fits c
  exp : c.exp = c'.exp
  multi : p = .whole → c.multi = c'.multi

/-- Arguments that are read as others. -/
structure AgreeArgs (cs cs' : Csts) : Prop where
  ok : cs.Ok
  exps : cs.exps = cs'.exps
  lastMulti : cs.lastMulti = cs'.lastMulti

section
variable {p : Place} {c c' d d' : Cst}

theorem fits_inner : Place.inner.Fits c ↔ c.Ok := and_iff_left trivial

theorem fits_target : Place.target.Fits c ↔ c.Ok ∧ c.IsPrefix :=
  and_congr_right fun _ => isPrefix_kind c

theorem fits_operand : Place.operand.Fits c ↔ c.Ok ∧ c.Above unaryPriority :=
  and_congr_right fun _ => above_kind c _

theorem fits_left {o : BinOp} : (Place.left o).Fits c ↔ c.Ok ∧ c.Closed o.left :=
  and_congr_right fun _ => closed_kind c _

theorem fits_right {o : BinOp} : (Place.right o).Fits c ↔ c.Ok ∧ c.Above o.right :=
  and_congr_right fun _ => above_kind c _

theorem agrees_of_ne (hp : p ≠ .whole) : p.Agrees c c' ↔ p.Fits c ∧ c.exp = c'.exp :=
  ⟨fun h => ⟨h.fits, h.exp⟩, fun h => ⟨h.1, h.2, fun hw => absurd hw hp⟩⟩

theorem agrees_inner : Place.inner.Agrees c c' ↔ c.Ok ∧ c.exp = c'.exp :=
  (agrees_of_ne (p := .inner) nofun).trans (and_congr_left fun _ => fits_inner)

theorem agrees_target : Place.target.Agrees c c' ↔ (c.Ok ∧ c.IsPrefix) ∧ c.exp = c'.exp :=
  (agrees_of_ne (p := .target) nofun).trans (and_congr_left fun _ => fits_target)

theorem agrees_operand :
    Place.operand.Agrees c c' ↔ (c.Ok ∧ c.Above unaryPriority) ∧ c.exp = c'.exp :=
  (agrees_of_ne (p := .operand) nofun).trans (and_congr_left fun _ => fits_operand)

theorem agrees_left {o : BinOp} :
    (Place.left o).Agrees c c' ↔ (c.Ok ∧ c.Closed o.left) ∧ c.exp = c'.exp :=
  (agrees_of_ne (p := .left o) nofun).trans (and_congr_left fun _ => fits_left)

theorem agrees_right {o : BinOp} :
    (Place.right o).Agrees c c' ↔ (c.Ok ∧ c.Above o.right) ∧ c.exp = c'.exp :=
  (agrees_of_ne (p := .right o) nofun).trans (and_congr_left fun _ => fits_right)

/-- A tree of the same kind needs no more of the place. -/
theorem agrees_of_kind (h : p.Fits c') (hk : c.kind = c'.kind) :
    p.Agrees c c' ↔ c.Ok ∧ c.exp = c'.exp := by
  constructor
  · exact fun h => ⟨h.fits.1, h.exp⟩
  · rintro ⟨hok, hexp⟩
    refine ⟨⟨hok, hk ▸ h.2⟩, hexp, fun _ => ?_⟩
    rw [← multi_kind, ← multi_kind, hk]

theorem fits_paren : p.Fits (.paren c) ↔ c.Ok := by
  refine ⟨And.left, fun h => ⟨h, ?_⟩⟩
  cases p <;> trivial

theorem agrees_paren (h : p.Fits (.paren c')) :
    p.Agrees (.paren c) (.paren c') ↔ Place.inner.Agrees c c' := by
  rw [agrees_of_kind (c := .paren c) h rfl, agrees_inner]
  exact Iff.rfl

/-- The parentheses are left out around `c`. -/
theorem agrees_drop : p.Agrees c (.paren c') ↔ p.Admits c.kind ∧ Place.inner.Agrees c c' := by
  rw [agrees_inner]
  constructor
  · intro h
    exact ⟨⟨h.fits.2, fun hp => (multi_kind c).trans (h.multi hp)⟩, h.fits.1, h.exp⟩
  · rintro ⟨⟨htakes, hmulti⟩, hok, hexp⟩
    exact ⟨⟨hok, htakes⟩, hexp, fun hp => (multi_kind c).symm.trans (hmulti hp)⟩

theorem agrees_unop {o : UnOp} (h : p.Fits (.unop o c')) :
    p.Agrees (.unop o c) (.unop o c') ↔ Place.operand.Agrees c c' := by
  rw [agrees_of_kind (c := .unop o c) h rfl, agrees_operand]
  exact and_congr_right fun _ => ⟨fun he => (Exp.unop.inj he).2, congrArg (Exp.unop o)⟩

theorem agrees_binop {o : BinOp} (h : p.Fits (.binop o c' d')) :
    p.Agrees (.binop o c d) (.binop o c' d') ↔
      (Place.left o).Agrees c c' ∧ (Place.right o).Agrees d d' := by
  rw [agrees_of_kind (c := .binop o c d) h rfl, agrees_left, agrees_right]
  constructor
  · rintro ⟨⟨hc, hd⟩, hexp⟩
    obtain ⟨-, hec, hed⟩ := Exp.binop.inj hexp
    exact ⟨⟨hc, hec⟩, hd, hed⟩
  · rintro ⟨⟨hc, hec⟩, hd, hed⟩
    exact ⟨⟨hc, hd⟩, by rw [Cst.exp, Cst.exp, hec, hed]⟩

theorem agrees_index (h : p.Fits (.index c' d')) :
    p.Agrees (.index c d) (.index c' d') ↔
      Place.target.Agrees c c' ∧ Place.inner.Agrees d d' := by
  rw [agrees_of_kind (c := .index c d) h rfl, agrees_target, agrees_inner]
  constructor
  · rintro ⟨⟨hc, hd⟩, hexp⟩
    obtain ⟨hec, hed⟩ := Exp.index.inj hexp
    exact ⟨⟨hc, hec⟩, hd, hed⟩
  · rintro ⟨⟨hc, hec⟩, hd, hed⟩
    exact ⟨⟨hc, hd⟩, by rw [Cst.exp, Cst.exp, hec, hed]⟩

theorem agrees_dot {x : String} (h : p.Fits (.dot c' x)) :
    p.Agrees (.dot c x) (.dot c' x) ↔ Place.target.Agrees c c' := by
  rw [agrees_of_kind (c := .dot c x) h rfl, agrees_target]
  exact and_congr_right fun _ => ⟨fun he => (Exp.dot.inj he).1, congrArg (Exp.dot · x)⟩

theorem agrees_call {m : Option String} {cs cs' : Csts} (h : p.Fits (.call c' m cs')) :
    p.Agrees (.call c m cs) (.call c' m cs') ↔ Place.target.Agrees c c' ∧ AgreeArgs cs cs' := by
  rw [agrees_of_kind (c := .call c m cs) h rfl, agrees_target]
  constructor
  · rintro ⟨⟨hc, hcs⟩, hexp⟩
    obtain ⟨hec, -, hecs, hmulti⟩ := Exp.call.inj hexp
    exact ⟨⟨hc, hec⟩, hcs, hecs, hmulti⟩
  · rintro ⟨⟨hc, hec⟩, hcs, hecs, hmulti⟩
    exact ⟨⟨hc, hcs⟩, by rw [Cst.exp, Cst.exp, hec, hecs, hmulti]⟩

theorem agrees_callAtom {m : Option String} {a : Atom} (h : p.Fits (.callAtom c' m a)) :
    p.Agrees (.callAtom c m a) (.callAtom c' m a) ↔ Place.target.Agrees c c' := by
  rw [agrees_of_kind (c := .callAtom c m a) h rfl, agrees_target]
  constructor
  · rintro ⟨⟨hc, -⟩, hexp⟩
    exact ⟨hc, (Exp.call.inj hexp).1⟩
  · rintro ⟨hc, hec⟩
    exact ⟨⟨hc, h.1.2⟩, by rw [Cst.exp, Cst.exp, hec]⟩

theorem agreeArgs_last : AgreeArgs (.cons c .nil) (.cons c' .nil) ↔ Place.whole.Agrees c c' := by
  constructor
  · rintro ⟨⟨hc, -⟩, hexps, hmulti⟩
    exact ⟨⟨hc, trivial⟩, (Exps.cons.inj hexps).1, fun _ => hmulti⟩
  · rintro ⟨⟨hc, -⟩, hexp, hmulti⟩
    exact ⟨⟨hc, trivial⟩, congrArg (Exps.cons · .nil) hexp, hmulti rfl⟩

theorem agreeArgs_cons {cs cs' : Csts} :
    AgreeArgs (.cons c (.cons d cs)) (.cons c' (.cons d' cs')) ↔
      Place.inner.Agrees c c' ∧ AgreeArgs (.cons d cs) (.cons d' cs') := by
  rw [agrees_inner]
  constructor
  · rintro ⟨⟨hc, hcs⟩, hexps, hmulti⟩
    obtain ⟨hec, hecs⟩ := Exps.cons.inj hexps
    exact ⟨⟨hc, hec⟩, hcs, hecs, hmulti⟩
  · rintro ⟨⟨hc, hec⟩, hcs, hecs, hmulti⟩
    exact ⟨⟨hc, hcs⟩, by rw [Csts.exps, hec, hecs, ← Csts.exps], hmulti⟩

end

mutual

/-- One case for each place in which parentheses are left out or a tree is read. -/
theorem agrees_tree_iff : ∀ (m : Marked) (p : Place), p.Fits (m.tree false) →
    (p.Agrees (m.tree true) (m.tree false) ↔ m.Safe p)
  | .atom _, _, h | .vararg, _, h | .name _, _, h =>
    ⟨fun _ => trivial, fun _ => ⟨h, rfl, fun _ => rfl⟩⟩
  | .paren out c, p, h => by
    have hinner : Place.inner.Fits (c.tree false) := fits_inner.mpr (fits_paren.mp h)
    rw [Marked.Safe, ← agrees_tree_iff c .inner hinner]
    cases out with
    | true =>
      refine (agrees_drop (c := c.tree true)).trans (and_congr_left fun _ => ?_)
      rw [kind_tree]
      exact ⟨fun hk _ => hk, fun hk => hk rfl⟩
    | false => exact (agrees_paren h).trans (and_iff_right nofun).symm
  | .unop o c, p, h => by
    rw [Marked.Safe, ← agrees_tree_iff c .operand (fits_operand.mpr h.1)]
    exact agrees_unop h
  | .binop o a b, p, h => by
    rw [Marked.Safe, ← agrees_tree_iff a (.left o) (fits_left.mpr h.1.1),
      ← agrees_tree_iff b (.right o) (fits_right.mpr h.1.2)]
    exact agrees_binop h
  | .index c k, p, h => by
    rw [Marked.Safe, ← agrees_tree_iff c .target (fits_target.mpr h.1.1),
      ← agrees_tree_iff k .inner (fits_inner.mpr h.1.2)]
    exact agrees_index h
  | .dot c x, p, h => by
    rw [Marked.Safe, ← agrees_tree_iff c .target (fits_target.mpr h.1)]
    exact agrees_dot h
  | .call c m args, p, h => by
    rw [Marked.Safe, ← agrees_tree_iff c .target (fits_target.mpr h.1.1),
      ← agreeArgs_tree_iff args h.1.2]
    exact agrees_call h
  | .callAtom c m a, p, h => by
    rw [Marked.Safe, ← agrees_tree_iff c .target (fits_target.mpr h.1.1)]
    exact agrees_callAtom h

theorem agreeArgs_tree_iff : ∀ ms : Markeds, (ms.tree false).Ok →
    (AgreeArgs (ms.tree true) (ms.tree false) ↔ ms.Safe)
  | .nil, _ => ⟨fun _ => trivial, fun _ => ⟨trivial, rfl, rfl⟩⟩
  | .cons c .nil, h => by
    rw [Markeds.Safe, Markeds.Safe, and_true, Markeds.place,
      ← agrees_tree_iff c .whole ⟨h.1, trivial⟩]
    exact agreeArgs_last
  | .cons c (.cons d ms), h => by
    rw [Markeds.Safe, Markeds.place, ← agrees_tree_iff c .inner (fits_inner.mpr h.1),
      ← agreeArgs_tree_iff (.cons d ms) h.2]
    exact agreeArgs_cons

end

/-! ### Marked tokens -/

/-- A token, and whether it is one of the marked parentheses. -/
abbrev Piece := Token × Bool

def plain (ts : List Token) : List Piece := ts.map (·, false)

mutual

def Marked.yield : Marked → List Piece
  | .atom a => plain [.atom a]
  | .vararg => plain [.vararg]
  | .name x => plain [.name x]
  | .paren out c => (.lparen, out) :: (c.yield ++ [(.rparen, out)])
  | .unop o c => (o.token, false) :: c.yield
  | .binop o a b => a.yield ++ (.bin o, false) :: b.yield
  | .index c k => c.yield ++ (.lbrack, false) :: (k.yield ++ plain [.rbrack])
  | .dot c x => c.yield ++ plain [.dot, .name x]
  | .call c m args =>
    c.yield ++ (plain (methodTokens m) ++ (.lparen, false) :: (args.yield ++ plain [.rparen]))
  | .callAtom c m a => c.yield ++ (plain (methodTokens m) ++ plain [.atom a])

def Markeds.yield : Markeds → List Piece
  | .nil => []
  | .cons c cs =>
    c.yield ++
      match cs with
      | .nil => []
      | .cons .. => (.comma, false) :: cs.yield

end

section
variable (drop : Bool)

def text (ts : List Piece) : List Token := (ts.filter fun t => ! (drop && t.2)).map (·.1)

theorem text_append (ts us : List Piece) : text drop (ts ++ us) = text drop ts ++ text drop us := by
  unfold text
  rw [List.filter_append, List.map_append]

theorem text_cons (t : Token) (ts : List Piece) :
    text drop ((t, false) :: ts) = t :: text drop ts := by
  unfold text
  rw [List.filter_cons_of_pos, List.map_cons]
  rw [Bool.and_false]
  rfl

theorem text_plain (ts : List Token) : text drop (plain ts) = ts := by
  induction ts with
  | nil => rfl
  | cons t ts ih => exact (text_cons drop t (plain ts)).trans (congrArg (t :: ·) ih)

mutual

theorem text_yield : ∀ m : Marked, text drop m.yield = (m.tree drop).yield
  | .atom _ | .vararg | .name _ => text_plain drop _
  | .paren out c => by
    have hfirst : ∀ ts, text drop ((.lparen, out) :: ts) =
        if drop && out then text drop ts else .lparen :: text drop ts := by
      intro ts
      cases drop <;> cases out <;> rfl
    have hlast : text drop [(.rparen, out)] = if drop && out then [] else [.rparen] := by
      cases drop <;> cases out <;> rfl
    rw [Marked.yield, Marked.tree, hfirst, text_append, hlast, text_yield c]
    split
    · exact List.append_nil _
    · rfl
  | .unop o c => by rw [Marked.yield, Marked.tree, Cst.yield, text_cons, text_yield c]
  | .binop o a b => by
    rw [Marked.yield, Marked.tree, Cst.yield, text_append, text_cons, text_yield a, text_yield b]
  | .index c k => by
    rw [Marked.yield, Marked.tree, Cst.yield, text_append, text_cons, text_append, text_plain,
      text_yield c, text_yield k]
  | .dot c x => by rw [Marked.yield, Marked.tree, Cst.yield, text_append, text_plain, text_yield c]
  | .call c m args => by
    rw [Marked.yield, Marked.tree, Cst.yield, text_append, text_append, text_cons, text_append,
      text_plain, text_plain, text_yield c, text_yields args]
  | .callAtom c m a => by
    rw [Marked.yield, Marked.tree, Cst.yield, text_append, text_append, text_plain, text_plain,
      text_yield c]

theorem text_yields : ∀ ms : Markeds, text drop ms.yield = (ms.tree drop).yield
  | .nil => rfl
  | .cons c .nil => by
    show text drop (c.yield ++ []) = (c.tree drop).yield ++ []
    rw [text_append, text_yield c]
    rfl
  | .cons c (.cons d ms) => by
    show text drop (c.yield ++ (.comma, false) :: (Markeds.cons d ms).yield) =
      (c.tree drop).yield ++ .comma :: ((Markeds.cons d ms).tree drop).yield
    rw [text_append, text_cons, text_yield c, text_yields (.cons d ms)]

end

end

/-! ### A text that is read with marks -/

/-- An expression may end with the token. -/
def Token.ends : Token → Bool
  | .atom _ | .vararg | .name _ | .rparen | .rbrack => true
  | _ => false

/-- Only pairs of parentheses are marked, and none that are those of a call. `ended` says whether an
expression has ended before, and `marks` are those of the open parentheses. -/
def Paired : Bool → List Bool → List Piece → Prop
  | _, _, [] => True
  | ended, marks, (t, out) :: ts =>
    match t with
    | .lparen => (out = true → ended = false) ∧ Paired false (out :: marks) ts
    | .rparen =>
      match marks with
      | [] => False
      | out' :: marks => out = out' ∧ Paired true marks ts
    | t => out = false ∧ Paired t.ends marks ts

section
variable {ended : Bool} {marks : List Bool}

theorem paired_cons {t : Token} {out : Bool} {ts : List Piece} (hl : t ≠ .lparen)
    (hr : t ≠ .rparen) :
    Paired ended marks ((t, out) :: ts) ↔ out = false ∧ Paired t.ends marks ts := by
  cases t with
  | lparen => exact absurd rfl hl
  | rparen => exact absurd rfl hr
  | _ => exact Iff.rfl

theorem paired_method {m : Option String} {ts : List Piece} (h : Paired true marks ts) :
    Paired true marks (plain (methodTokens m) ++ ts) := by
  cases m with
  | none => exact h
  | some x => exact ⟨rfl, rfl, h⟩

mutual

theorem paired_yield : ∀ (m : Marked) (marks : List Bool) (ts : List Piece),
    Paired true marks ts → Paired false marks (m.yield ++ ts)
  | .atom _, _, _, h | .vararg, _, _, h | .name _, _, _, h => ⟨rfl, h⟩
  | .paren out c, marks, ts, h => by
    rw [Marked.yield, List.cons_append, List.append_assoc]
    exact ⟨fun _ => rfl, paired_yield c _ _ ⟨rfl, h⟩⟩
  | .unop o c, marks, ts, h => by
    have hends : o.token.ends = false := by cases o <;> rfl
    have hc := paired_yield c marks ts h
    rw [← hends] at hc
    refine (paired_cons ?_ ?_).mpr ⟨rfl, hc⟩
    · cases o <;> exact nofun
    · cases o <;> exact nofun
  | .binop o a b, marks, ts, h => by
    rw [Marked.yield, List.append_assoc]
    exact paired_yield a _ _ ⟨rfl, paired_yield b _ _ h⟩
  | .index c k, marks, ts, h => by
    rw [Marked.yield, List.append_assoc, List.cons_append, List.append_assoc]
    exact paired_yield c _ _ ⟨rfl, paired_yield k _ _ ⟨rfl, h⟩⟩
  | .dot c x, marks, ts, h => by
    rw [Marked.yield, List.append_assoc]
    exact paired_yield c _ _ ⟨rfl, rfl, h⟩
  | .call c m args, marks, ts, h => by
    rw [Marked.yield, List.append_assoc, List.append_assoc, List.cons_append, List.append_assoc]
    exact paired_yield c _ _ (paired_method
      ⟨nofun, paired_yields args _ _ fun _ => ⟨rfl, h⟩⟩)
  | .callAtom c m a, marks, ts, h => by
    rw [Marked.yield, List.append_assoc, List.append_assoc]
    exact paired_yield c _ _ (paired_method ⟨rfl, h⟩)

theorem paired_yields : ∀ (ms : Markeds) (marks : List Bool) (ts : List Piece),
    (∀ ended, Paired ended marks ts) → Paired false marks (ms.yield ++ ts)
  | .nil, _, _, h => h false
  | .cons c .nil, marks, ts, h => by
    show Paired false marks ((c.yield ++ []) ++ ts)
    rw [List.append_nil]
    exact paired_yield c _ _ (h true)
  | .cons c (.cons d ms), marks, ts, h => by
    show Paired false marks ((c.yield ++ (.comma, false) :: (Markeds.cons d ms).yield) ++ ts)
    rw [List.append_assoc]
    exact paired_yield c _ _ ⟨rfl, paired_yields (.cons d ms) _ _ h⟩

end

/-- Pieces of which the text begins with `r'` and goes on with `r`. -/
structure Reads (ended : Bool) (marks : List Bool) (ts : List Piece) (r : List Token) : Prop where
  paired : Paired ended marks ts
  text_eq : text false ts = r

namespace Reads
variable {t : Token} {ts : List Piece} {r : List Token}

theorem exists_cons (h : Reads ended marks ts (t :: r)) :
    ∃ out us, ts = (t, out) :: us ∧ text false us = r := by
  cases ts with
  | nil => cases h.text_eq
  | cons u us =>
    obtain ⟨rfl, hr⟩ := List.cons.inj h.text_eq
    exact ⟨u.2, us, rfl, hr⟩

theorem cons (h : Reads ended marks ts (t :: r)) (hl : t ≠ .lparen) (hr : t ≠ .rparen) :
    ∃ us, ts = (t, false) :: us ∧ Reads t.ends marks us r := by
  obtain ⟨out, us, rfl, htext⟩ := h.exists_cons
  obtain ⟨rfl, hpaired⟩ := (paired_cons hl hr).mp h.paired
  exact ⟨us, rfl, hpaired, htext⟩

theorem lparen (h : Reads ended marks ts (.lparen :: r)) :
    ∃ out us, ts = (.lparen, out) :: us ∧ (out = true → ended = false) ∧
      Reads false (out :: marks) us r := by
  obtain ⟨out, us, rfl, htext⟩ := h.exists_cons
  obtain ⟨hout, hpaired⟩ := h.paired
  exact ⟨out, us, rfl, hout, hpaired, htext⟩

theorem rparen {out : Bool} (h : Reads ended (out :: marks) ts (.rparen :: r)) :
    ∃ us, ts = (.rparen, out) :: us ∧ Reads true marks us r := by
  obtain ⟨out', us, rfl, htext⟩ := h.exists_cons
  obtain ⟨rfl, hpaired⟩ := h.paired
  exact ⟨us, rfl, hpaired, htext⟩

theorem method {m : Option String} (h : Reads true marks ts (methodTokens m ++ r)) :
    ∃ us, ts = plain (methodTokens m) ++ us ∧ Reads true marks us r := by
  cases m with
  | none => exact ⟨ts, rfl, h⟩
  | some x =>
    obtain ⟨us, rfl, h1⟩ := h.cons nofun nofun
    obtain ⟨us, rfl, h2⟩ := h1.cons nofun nofun
    exact ⟨us, rfl, h2⟩

end Reads

mutual

/-- The marks go over to the tree that is read. -/
theorem exists_marked : ∀ (c : Cst) {ended : Bool} {marks : List Bool} {ts : List Piece}
    {r : List Token}, Reads ended marks ts (c.yield ++ r) →
      ∃ (m : Marked) (us : List Piece), m.tree false = c ∧ ts = m.yield ++ us ∧
        Reads true marks us r
  | .atom a, _, _, _, _, h => by
    obtain ⟨us, rfl, h1⟩ := h.cons nofun nofun
    exact ⟨.atom a, us, rfl, rfl, h1⟩
  | .vararg, _, _, _, _, h => by
    obtain ⟨us, rfl, h1⟩ := h.cons nofun nofun
    exact ⟨.vararg, us, rfl, rfl, h1⟩
  | .name x, _, _, _, _, h => by
    obtain ⟨us, rfl, h1⟩ := h.cons nofun nofun
    exact ⟨.name x, us, rfl, rfl, h1⟩
  | .paren c, _, _, _, _, h => by
    rw [Cst.yield, List.cons_append, List.append_assoc] at h
    obtain ⟨out, us, rfl, -, h1⟩ := h.lparen
    obtain ⟨m, us, rfl, rfl, h2⟩ := exists_marked c h1
    obtain ⟨us, rfl, h3⟩ := h2.rparen
    refine ⟨.paren out m, us, rfl, ?_, h3⟩
    rw [Marked.yield, List.cons_append, List.append_assoc]
    rfl
  | .unop o c, _, _, _, _, h => by
    obtain ⟨us, rfl, h1⟩ := h.cons (by cases o <;> exact nofun) (by cases o <;> exact nofun)
    obtain ⟨m, us, rfl, rfl, h2⟩ := exists_marked c h1
    exact ⟨.unop o m, us, rfl, rfl, h2⟩
  | .binop o a b, _, _, _, _, h => by
    rw [Cst.yield, List.append_assoc] at h
    obtain ⟨m, us, rfl, rfl, h1⟩ := exists_marked a h
    obtain ⟨us, rfl, h2⟩ := h1.cons nofun nofun
    obtain ⟨m', us, rfl, rfl, h3⟩ := exists_marked b h2
    exact ⟨.binop o m m', us, rfl, by rw [Marked.yield, List.append_assoc]; rfl, h3⟩
  | .index c k, _, _, _, _, h => by
    rw [Cst.yield, List.append_assoc, List.cons_append, List.append_assoc] at h
    obtain ⟨m, us, rfl, rfl, h1⟩ := exists_marked c h
    obtain ⟨us, rfl, h2⟩ := h1.cons nofun nofun
    obtain ⟨m', us, rfl, rfl, h3⟩ := exists_marked k h2
    obtain ⟨us, rfl, h4⟩ := h3.cons nofun nofun
    refine ⟨.index m m', us, rfl, ?_, h4⟩
    rw [Marked.yield, List.append_assoc, List.cons_append, List.append_assoc]
    rfl
  | .dot c x, _, _, _, _, h => by
    rw [Cst.yield, List.append_assoc] at h
    obtain ⟨m, us, rfl, rfl, h1⟩ := exists_marked c h
    obtain ⟨us, rfl, h2⟩ := h1.cons nofun nofun
    obtain ⟨us, rfl, h3⟩ := h2.cons nofun nofun
    exact ⟨.dot m x, us, rfl, by rw [Marked.yield, List.append_assoc]; rfl, h3⟩
  | .call c x args, _, _, _, _, h => by
    rw [Cst.yield, List.append_assoc, List.append_assoc, List.cons_append, List.append_assoc] at h
    obtain ⟨m, us, rfl, rfl, h1⟩ := exists_marked c h
    obtain ⟨us, rfl, h2⟩ := h1.method
    obtain ⟨out, us, rfl, hout, h3⟩ := h2.lparen
    -- the parentheses of a call are not marked
    obtain rfl : out = false := by
      cases out with
      | false => rfl
      | true => cases hout rfl
    obtain ⟨ms, us, hms, rfl, ended, h4⟩ := exists_markeds args h3
    obtain ⟨us, rfl, h5⟩ := h4.rparen
    refine ⟨.call m x ms, us, by rw [Marked.tree, hms], ?_, h5⟩
    rw [Marked.yield, List.append_assoc, List.append_assoc, List.cons_append, List.append_assoc]
    rfl
  | .callAtom c x a, _, _, _, _, h => by
    rw [Cst.yield, List.append_assoc, List.append_assoc] at h
    obtain ⟨m, us, rfl, rfl, h1⟩ := exists_marked c h
    obtain ⟨us, rfl, h2⟩ := h1.method
    obtain ⟨us, rfl, h3⟩ := h2.cons nofun nofun
    refine ⟨.callAtom m x a, us, rfl, ?_, h3⟩
    rw [Marked.yield, List.append_assoc, List.append_assoc]
    rfl

theorem exists_markeds : ∀ (cs : Csts) {marks : List Bool} {ts : List Piece} {r : List Token},
    Reads false marks ts (cs.yield ++ r) →
      ∃ (ms : Markeds) (us : List Piece), ms.tree false = cs ∧ ts = ms.yield ++ us ∧
        ∃ ended, Reads ended marks us r
  | .nil, _, ts, _, h => ⟨.nil, ts, rfl, rfl, false, h⟩
  | .cons c .nil, _, _, _, h => by
    rw [Csts.yield, List.append_nil] at h
    obtain ⟨m, us, rfl, rfl, h1⟩ := exists_marked c h
    exact ⟨.cons m .nil, us, rfl, by rw [Markeds.yield, List.append_nil], true, h1⟩
  | .cons c (.cons d cs), _, _, _, h => by
    rw [Csts.yield, List.append_assoc] at h
    obtain ⟨m, us, rfl, rfl, h1⟩ := exists_marked c h
    obtain ⟨us, rfl, h2⟩ := h1.cons nofun nofun
    obtain ⟨ms, us, hms, rfl, h3⟩ := exists_markeds (.cons d cs) h2
    cases ms with
    | nil => cases hms
    | cons m' ms =>
      refine ⟨.cons m (.cons m' ms), us, by rw [Markeds.tree, hms], ?_, h3⟩
      rw [Markeds.yield, List.append_assoc]
      rfl

end

end

/-- A reading of a text stays the same without the marked parentheses. -/
def KeepsMeaning (ts : List Piece) : Prop :=
  ∃ c c', Parses (text true ts) c ∧ Parses (text false ts) c' ∧ c.meaning = c'.meaning

mutual

theorem tree_shape : ∀ m : Marked, (m.tree true).exp.shape = (m.tree false).exp.shape
  | .atom _ | .vararg | .name _ => rfl
  | .paren out c => by
    cases out with
    | false => exact tree_shape c
    | true => exact tree_shape c
  | .unop o c => congrArg (Exp.unop o) (tree_shape c)
  | .binop o a b => congrArg₂ (Exp.binop o) (tree_shape a) (tree_shape b)
  | .index c k => congrArg₂ Exp.index (tree_shape c) (tree_shape k)
  | .dot c x => congrArg (Exp.dot · x) (tree_shape c)
  | .call c m args =>
    congrArg₂ (fun e es => Exp.call e m es false) (tree_shape c) (tree_shapes args)
  | .callAtom c m a =>
    congrArg (fun e => Exp.call e m (.cons (.atom a) .nil) false) (tree_shape c)

theorem tree_shapes : ∀ ms : Markeds, (ms.tree true).exps.shape = (ms.tree false).exps.shape
  | .nil => rfl
  | .cons c cs => congrArg₂ Exps.cons (tree_shape c) (tree_shapes cs)

end

theorem keepsMeaning_of_ok {m : Marked} (hok : (m.tree false).Ok) :
    KeepsMeaning m.yield ↔ m.Safe .whole := by
  have hparses : Parses (text false m.yield) (m.tree false) :=
    parses_iff.mpr ⟨hok, (text_yield false m).symm⟩
  rw [← agrees_tree_iff m .whole ⟨hok, trivial⟩]
  constructor
  · rintro ⟨c, c', hc, hc', hmeaning⟩
    obtain rfl := hc'.unique hparses
    obtain ⟨hcok, hyield⟩ := parses_iff.mp hc
    rw [text_yield] at hyield
    have hshape : c.exp.shape = (m.tree true).exp.shape :=
      (congrArg (Exp.shape ·.1) hmeaning).trans (tree_shape m).symm
    obtain rfl := eq_of_shape_of_yield hshape hyield
    exact ⟨⟨hcok, trivial⟩, congrArg Prod.fst hmeaning, fun _ => congrArg Prod.snd hmeaning⟩
  · intro h
    refine ⟨_, _, parses_iff.mpr ⟨h.fits.1, (text_yield true m).symm⟩, hparses, ?_⟩
    rw [Cst.meaning, h.exp, h.multi rfl, ← Cst.meaning]

/-- The tree that is read from a text with all its parentheses. -/
def Marked.IsRead (ts : List Piece) (m : Marked) : Prop := m.yield = ts ∧ (m.tree false).Ok

/-- The tree of which these are the tokens may not be the one that is read. -/
theorem keepsMeaning_iff (m : Marked) :
    KeepsMeaning m.yield ↔ ∃ m' : Marked, m'.IsRead m.yield ∧ m'.Safe .whole := by
  constructor
  · intro h
    obtain ⟨c, c', -, hc', -⟩ := id h
    obtain ⟨hok, hyield⟩ := parses_iff.mp hc'
    have hreads : Reads false [] m.yield (c'.yield ++ []) := by
      refine ⟨?_, by rw [hyield, List.append_nil]⟩
      have hpaired := paired_yield m [] [] trivial
      rwa [List.append_nil] at hpaired
    obtain ⟨m', us, rfl, hus, hend⟩ := exists_marked c' hreads
    obtain rfl : us = [] := by
      cases us with
      | nil => rfl
      | cons u us => cases hend.text_eq
    rw [List.append_nil] at hus
    rw [hus] at h
    exact ⟨m', ⟨hus.symm, hok⟩, (keepsMeaning_of_ok hok).mp h⟩
  · rintro ⟨m', ⟨hyield, hok⟩, hsafe⟩
    rw [← hyield]
    exact (keepsMeaning_of_ok hok).mpr hsafe

/-! ### Long strings where parentheses are left out -/

/-- A text that is read, with what the lexer makes of it. -/
def Reading (joined : Joined) (ts : List Token) (c : Cst) : Prop :=
  ∃ us, lex joined ts = some us ∧ Parses us c

def KeepsText (joined : Joined) (ts : List Piece) : Prop :=
  ∃ c c', Reading joined (text true ts) c ∧ Reading joined (text false ts) c' ∧
    c.meaning = c'.meaning

theorem reading_iff {joined : Joined} {ts : List Token} (h : Apart false ts) (c : Cst) :
    Reading joined ts c ↔ Parses ts c := by
  unfold Reading
  rw [h.lex_eq]
  exact ⟨fun ⟨us, hus, hc⟩ => Option.some.inj hus ▸ hc, fun hc => ⟨ts, rfl, hc⟩⟩

theorem opensLong_tree : ∀ m : Marked, (m.tree true).opensLong = false →
    (m.tree false).opensLong = false
  | .atom _, h => h
  | .vararg, _ | .name _, _ | .paren _ _, _ | .unop _ _, _ => rfl
  | .binop _ c _, h | .index c _, h | .dot c _, h | .call c _ _, h | .callAtom c _ _, h =>
    opensLong_tree c h

mutual

/-- Where no key begins with a long string without the parentheses, none does with them. -/
theorem keysApart_tree : ∀ m : Marked, (m.tree true).KeysApart → (m.tree false).KeysApart
  | .atom _, _ | .vararg, _ | .name _, _ => trivial
  | .paren out c, h => by
    cases out with
    | false => exact keysApart_tree c h
    | true => exact keysApart_tree c h
  | .unop _ c, h | .dot c _, h | .callAtom c _ _, h => keysApart_tree c h
  | .binop _ a b, h => ⟨keysApart_tree a h.1, keysApart_tree b h.2⟩
  | .index c k, h => ⟨keysApart_tree c h.1, opensLong_tree k h.2.1, keysApart_tree k h.2.2⟩
  | .call c _ args, h => ⟨keysApart_tree c h.1, keysApart_trees args h.2⟩

theorem keysApart_trees : ∀ ms : Markeds, (ms.tree true).KeysApart → (ms.tree false).KeysApart
  | .nil, _ => trivial
  | .cons c cs, h => ⟨keysApart_tree c h.1, keysApart_trees cs h.2⟩

end

/-- A bracket that a long string has joined is missing from what is read. -/
theorem lex_eq_of_meaning {joined : Joined} {m : Marked} {us : List Token} {c : Cst}
    (hlex : lex joined (m.tree true).yield = some us) (hc : c.yield = us)
    (hexp : c.exp.tokens = (m.tree false).exp.tokens) : us = (m.tree true).yield := by
  rcases apart_or_of_lex hlex with h | ⟨pre, a, post, us', hts, rfl⟩
  · exact h
  have htokens : bare (m.tree true).yield = bare c.yield := by
    rw [bare_yield, bare_yield, hexp, ← tokens_shape, tree_shape, tokens_shape]
  rw [hts, hc, bare_append, bare_append, bare_cons rfl, bare_cons rfl] at htokens
  exact absurd (List.cons.inj (List.append_cancel_left htokens)).1 nofun

theorem keepsText_iff (joined : Joined) (m : Marked) :
    (m.tree false).KeysApart ∧ KeepsText joined m.yield ↔
      (m.tree true).KeysApart ∧ KeepsMeaning m.yield := by
  constructor
  · rintro ⟨hkept, c, c', ⟨us, hlex, hc⟩, hc', hmeaning⟩
    rw [text_yield, reading_iff ((apart_iff _).mpr hkept)] at hc'
    rw [text_yield] at hlex
    have hbare : bare c'.yield = bare (m.tree false).yield := by rw [(parses_iff.mp hc').2]
    have hsame : c.exp = c'.exp := congrArg Prod.fst hmeaning
    have hexp : c.exp.tokens = (m.tree false).exp.tokens := by
      rw [← bare_yield (m.tree false), ← hbare, bare_yield, hsame]
    obtain rfl := lex_eq_of_meaning hlex (parses_iff.mp hc).2 hexp
    refine ⟨(apart_iff _).mp (apart_of_lex_eq hlex), c, c', ?_, ?_, hmeaning⟩
    · rwa [text_yield]
    · rwa [text_yield]
  · rintro ⟨hapart, c, c', hc, hc', hmeaning⟩
    have hkept := keysApart_tree m hapart
    refine ⟨hkept, c, c', ?_, ?_, hmeaning⟩
    · rw [text_yield] at hc ⊢
      exact (reading_iff ((apart_iff _).mpr hapart) c).mpr hc
    · rw [text_yield] at hc' ⊢
      exact (reading_iff ((apart_iff _).mpr hkept) c').mpr hc'

end Dir842.LuaSyntax
