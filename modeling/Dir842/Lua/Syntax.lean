import Mathlib.Data.List.Basic

/-!
# Expressions of Lua

The syntax trees that `lparser.c` of Lua 5.3 goes through, with every pair of parentheses, and what
such a tree means: the same without the parentheses, but with the number of values that are passed
on. Table constructors and functions are not looked into.
-/

namespace Dir842.LuaSyntax

inductive BinOp
  | or | and | lt | gt | le | ge | ne | eq | bor | bxor | band | shl | shr | concat
  | add | sub | mul | div | idiv | mod | pow
deriving DecidableEq

inductive UnOp
  | not | len | neg | bnot
deriving DecidableEq

inductive Atom
  | nil
  | bool (b : Bool)
  | numeral (s : String)
  | string (s : String)
  /-- A string in long brackets with so many signs `=` in each. -/
  | longString (level : ℕ) (s : String)
  | table (s : String)
  | function (s : String)
deriving DecidableEq

inductive Token
  | atom (a : Atom)
  | vararg
  | name (x : String)
  /-- Two of them, `-` and `~`, are unary operators as well. -/
  | bin (o : BinOp)
  | not | len
  | lparen | rparen | lbrack | rbrack | dot | colon | comma
deriving DecidableEq

def UnOp.token : UnOp → Token
  | not => .not
  | len => .len
  | neg => .bin .sub
  | bnot => .bin .bxor

/-! ### Trees -/

mutual

inductive Cst
  | atom (a : Atom)
  | vararg
  | name (x : String)
  | paren (c : Cst)
  | unop (o : UnOp) (c : Cst)
  | binop (o : BinOp) (a b : Cst)
  | index (c k : Cst)
  | dot (c : Cst) (x : String)
  /-- A call, of a method if `m` is its name. -/
  | call (c : Cst) (m : Option String) (args : Csts)
  /-- The call with a string or a table that is not in parentheses. -/
  | callAtom (c : Cst) (m : Option String) (a : Atom)

inductive Csts
  | nil
  | cons (c : Cst) (cs : Csts)

end

def methodTokens : Option String → List Token
  | none => []
  | some x => [.colon, .name x]

mutual

def Cst.yield : Cst → List Token
  | .atom a => [.atom a]
  | .vararg => [.vararg]
  | .name x => [.name x]
  | .paren c => .lparen :: (c.yield ++ [.rparen])
  | .unop o c => o.token :: c.yield
  | .binop o a b => a.yield ++ .bin o :: b.yield
  | .index c k => c.yield ++ .lbrack :: (k.yield ++ [.rbrack])
  | .dot c x => c.yield ++ [.dot, .name x]
  | .call c m args => c.yield ++ (methodTokens m ++ .lparen :: (args.yield ++ [.rparen]))
  | .callAtom c m a => c.yield ++ (methodTokens m ++ [.atom a])

def Csts.yield : Csts → List Token
  | .nil => []
  | .cons c cs =>
    c.yield ++
      match cs with
      | .nil => []
      | .cons .. => .comma :: cs.yield

end

/-! ### Priorities -/

/-- The left priority of an operator in `priority`. -/
def BinOp.left : BinOp → ℕ
  | or => 1
  | and => 2
  | lt | gt | le | ge | ne | eq => 3
  | bor => 4
  | bxor => 5
  | band => 6
  | shl | shr => 7
  | concat => 9
  | add | sub => 10
  | mul | div | idiv | mod => 11
  | pow => 14

/-- The right priority: two operators are right associative. -/
def BinOp.right : BinOp → ℕ
  | concat => 8
  | pow => 13
  | o => o.left

/-- `UNARY_PRIORITY` -/
def unaryPriority : ℕ := 12

namespace Cst

/-- A `suffixedexp`, which may be called and indexed. -/
def IsPrefix : Cst → Prop
  | name _ | paren _ | index .. | dot .. | call .. | callAtom .. => True
  | _ => False

/-- As it stands in an operand that is read with a limit. -/
def Above (limit : ℕ) : Cst → Prop
  | binop o _ _ => limit < o.left
  | _ => True

/-- An operator of the left priority that follows does not take its last operand. -/
def Closed (left : ℕ) : Cst → Prop
  | binop o _ _ => left ≤ o.right
  | unop _ _ => left ≤ unaryPriority
  | _ => True

/-- It gives all the values of a call or of `...`. -/
def multi : Cst → Bool
  | vararg | call .. | callAtom .. => true
  | _ => false

end Cst

def Atom.isArg : Atom → Bool
  | string _ | longString .. | table _ => true
  | _ => false

mutual

/-- A tree that is read from its tokens: its parentheses are where they have to be. -/
def Cst.Ok : Cst → Prop
  | .atom _ | .vararg | .name _ => True
  | .paren c => c.Ok
  | .unop _ c => c.Ok ∧ c.Above unaryPriority
  | .binop o a b => (a.Ok ∧ a.Closed o.left) ∧ b.Ok ∧ b.Above o.right
  | .index c k => (c.Ok ∧ c.IsPrefix) ∧ k.Ok
  | .dot c _ => c.Ok ∧ c.IsPrefix
  | .call c _ args => (c.Ok ∧ c.IsPrefix) ∧ args.Ok
  | .callAtom c _ a => (c.Ok ∧ c.IsPrefix) ∧ a.isArg = true

def Csts.Ok : Csts → Prop
  | .nil => True
  | .cons c cs => c.Ok ∧ cs.Ok

end

/-! ### Meaning -/

mutual

/-- An expression, of which a call gets all the values of its last argument if `all`. -/
inductive Exp
  | atom (a : Atom)
  | vararg
  | name (x : String)
  | unop (o : UnOp) (e : Exp)
  | binop (o : BinOp) (a b : Exp)
  | index (e k : Exp)
  | dot (e : Exp) (x : String)
  | call (e : Exp) (m : Option String) (args : Exps) (all : Bool)

inductive Exps
  | nil
  | cons (e : Exp) (es : Exps)

end

def Csts.lastMulti : Csts → Bool
  | .nil => false
  | .cons c .nil => c.multi
  | .cons _ cs => cs.lastMulti

mutual

def Cst.exp : Cst → Exp
  | .atom a => .atom a
  | .vararg => .vararg
  | .name x => .name x
  | .paren c => c.exp
  | .unop o c => .unop o c.exp
  | .binop o a b => .binop o a.exp b.exp
  | .index c k => .index c.exp k.exp
  | .dot c x => .dot c.exp x
  | .call c m args => .call c.exp m args.exps args.lastMulti
  | .callAtom c m a => .call c.exp m (.cons (.atom a) .nil) false

def Csts.exps : Csts → Exps
  | .nil => .nil
  | .cons c cs => .cons c.exp cs.exps

end

/-- The expression, and whether it gives all its values. -/
def Cst.meaning (c : Cst) : Exp × Bool := (c.exp, c.multi)

mutual

/-- Without the numbers of values. -/
def Exp.shape : Exp → Exp
  | .unop o e => .unop o e.shape
  | .binop o a b => .binop o a.shape b.shape
  | .index e k => .index e.shape k.shape
  | .dot e x => .dot e.shape x
  | .call e m args _ => .call e.shape m args.shape false
  | e => e

def Exps.shape : Exps → Exps
  | .nil => .nil
  | .cons e es => .cons e.shape es.shape

end

/-! ### A tree is known from its shape and its tokens -/

def Cst.parens : ℕ → Cst → Cst
  | 0, c => c
  | n + 1, c => .paren (c.parens n)

/-- The number of parentheses before the first other token. -/
def Cst.lead : Cst → ℕ
  | .paren c => c.lead + 1
  | .binop _ c _ | .index c _ | .dot c _ | .call c _ _ | .callAtom c _ _ => c.lead
  | _ => 0

/-- The tokens behind these parentheses. -/
def Cst.tail : Cst → List Token
  | .paren c => c.tail ++ [.rparen]
  | .binop o a b => a.tail ++ .bin o :: b.yield
  | .index c k => c.tail ++ .lbrack :: (k.yield ++ [.rbrack])
  | .dot c x => c.tail ++ [.dot, .name x]
  | .call c m args => c.tail ++ (methodTokens m ++ .lparen :: (args.yield ++ [.rparen]))
  | .callAtom c m a => c.tail ++ (methodTokens m ++ [.atom a])
  | c => c.yield

theorem yield_eq : ∀ c : Cst, c.yield = List.replicate c.lead .lparen ++ c.tail
  | .atom _ | .vararg | .name _ | .unop .. => rfl
  | .paren c => by
    rw [Cst.yield, yield_eq c, Cst.lead, Cst.tail, List.replicate_succ, List.append_assoc]
    rfl
  | .binop o a b => by rw [Cst.yield, yield_eq a, Cst.lead, Cst.tail, List.append_assoc]
  | .index c k => by rw [Cst.yield, yield_eq c, Cst.lead, Cst.tail, List.append_assoc]
  | .dot c x => by rw [Cst.yield, yield_eq c, Cst.lead, Cst.tail, List.append_assoc]
  | .call c m args => by rw [Cst.yield, yield_eq c, Cst.lead, Cst.tail, List.append_assoc]
  | .callAtom c m a => by rw [Cst.yield, yield_eq c, Cst.lead, Cst.tail, List.append_assoc]

theorem exists_tail_eq : ∀ c : Cst, ∃ t ts, c.tail = t :: ts ∧ t ≠ .lparen
  | .atom a => ⟨.atom a, [], rfl, nofun⟩
  | .vararg => ⟨.vararg, [], rfl, nofun⟩
  | .name x => ⟨.name x, [], rfl, nofun⟩
  | .unop o c => ⟨o.token, c.yield, rfl, by cases o <;> exact nofun⟩
  | .paren c | .binop _ c _ | .index c _ | .dot c _ | .call c _ _ | .callAtom c _ _ => by
    obtain ⟨t, ts, h, ht⟩ := exists_tail_eq c
    exact ⟨t, _, by rw [Cst.tail, h]; rfl, ht⟩

theorem replicate_append_inj {α : Type*} {a x x' : α} {r r' : List α} (hx : x ≠ a) (hx' : x' ≠ a) :
    ∀ {i j : ℕ}, List.replicate i a ++ x :: r = List.replicate j a ++ x' :: r' →
      i = j ∧ x :: r = x' :: r'
  | 0, 0, h => ⟨rfl, h⟩
  | 0, j + 1, h => absurd (List.cons.inj h).1 hx
  | i + 1, 0, h => absurd (List.cons.inj h).1.symm hx'
  | i + 1, j + 1, h => by
    obtain ⟨hij, hr⟩ := replicate_append_inj hx hx' (List.cons.inj h).2
    exact ⟨congrArg (· + 1) hij, hr⟩

/-- Trees of one shape that have the same tokens behind their first parentheses differ only in
parentheses around the whole. -/
def TailInj (c : Cst) : Prop := ∀ (c' : Cst) (r r' : List Token), c.exp.shape = c'.exp.shape →
  c.tail ++ r = c'.tail ++ r' → ∃ (d : Cst) (i j : ℕ), c = d.parens i ∧ c' = d.parens j ∧
    List.replicate i .rparen ++ r = List.replicate j .rparen ++ r'

theorem lead_parens (c : Cst) (n : ℕ) : (c.parens n).lead = c.lead + n := by
  induction n with
  | zero => rfl
  | succ n ih => rw [Cst.parens, Cst.lead, ih, Nat.add_assoc]

section
variable {c : Cst}

theorem TailInj.of_cons (h : TailInj c) {c' : Cst} {x x' : Token} {r r' : List Token}
    (he : c.exp.shape = c'.exp.shape) (ht : c.tail ++ x :: r = c'.tail ++ x' :: r') (hx : x ≠ .rparen)
    (hx' : x' ≠ .rparen) : c = c' ∧ x :: r = x' :: r' := by
  obtain ⟨d, i, j, hc, hc', hr⟩ := h c' _ _ he ht
  obtain ⟨rfl, hxr⟩ := replicate_append_inj hx hx' hr
  exact ⟨hc.trans hc'.symm, hxr⟩

theorem TailInj.of_yield (h : TailInj c) {c' : Cst} {r r' : List Token} (he : c.exp.shape = c'.exp.shape)
    (hy : c.yield ++ r = c'.yield ++ r') : c = c' ∧ r = r' := by
  obtain ⟨t, ts, ht, htp⟩ := exists_tail_eq c
  obtain ⟨t', ts', ht', htp'⟩ := exists_tail_eq c'
  rw [yield_eq c, yield_eq c', List.append_assoc, List.append_assoc, ht, ht', List.cons_append,
    List.cons_append] at hy
  obtain ⟨hlead, hrest⟩ := replicate_append_inj htp htp' hy
  rw [← List.cons_append, ← List.cons_append, ← ht, ← ht'] at hrest
  obtain ⟨d, i, j, rfl, rfl, hr⟩ := h c' _ _ he hrest
  rw [lead_parens, lead_parens] at hlead
  obtain rfl : i = j := Nat.add_left_cancel hlead
  exact ⟨rfl, List.append_cancel_left hr⟩

theorem exists_paren_or (c : Cst) : (∃ d, c = .paren d) ∨ ∀ d, c ≠ .paren d := by
  cases c with
  | paren d => exact .inl ⟨d, rfl⟩
  | _ => exact .inr nofun

/-- It is enough to look at trees without parentheses around them. -/
theorem tailInj_of_not_paren (h : ∀ (c' : Cst) (r r' : List Token), (∀ d, c' ≠ .paren d) →
    c.exp.shape = c'.exp.shape → c.tail ++ r = c'.tail ++ r' → c = c' ∧ r = r') : TailInj c := by
  intro c'
  induction hn : sizeOf c' using Nat.strongRecOn generalizing c' with
  | ind n ih =>
    subst hn
    intro r r' he ht
    rcases exists_paren_or c' with ⟨d, rfl⟩ | hc'
    · rw [Cst.tail, List.append_assoc] at ht
      obtain ⟨d', i, j, hc, rfl, hr⟩ := ih _ (by simp) d rfl r (.rparen :: r') he ht
      refine ⟨d', i, j + 1, hc, rfl, ?_⟩
      rw [hr, List.replicate_succ', List.append_assoc, List.singleton_append]
    · obtain ⟨rfl, rfl⟩ := h c' r r' hc' he ht
      exact ⟨c, 0, 0, rfl, rfl, rfl⟩

/-- What follows the function of a call. -/
theorem TailInj.of_method (h : TailInj c) {c' : Cst} {m m' : Option String} {x x' : Token}
    {r r' : List Token} (he : c.exp.shape = c'.exp.shape) (hm : m = m')
    (ht : c.tail ++ (methodTokens m ++ x :: r) = c'.tail ++ (methodTokens m' ++ x' :: r'))
    (hx : x ≠ .rparen) (hx' : x' ≠ .rparen) : c = c' ∧ x :: r = x' :: r' := by
  subst hm
  cases m with
  | none => exact h.of_cons he ht hx hx'
  | some y =>
    obtain ⟨rfl, hr⟩ := @of_cons _ h c' .colon .colon _ _ he ht nofun nofun
    exact ⟨rfl, (List.cons.inj (List.cons.inj hr).2).2⟩

mutual

theorem tailInj : ∀ c : Cst, TailInj c
  | .paren c => by
    intro c' r r' he ht
    rw [Cst.tail, List.append_assoc] at ht
    obtain ⟨d, i, j, rfl, hc', hr⟩ := tailInj c c' (.rparen :: r) r' he ht
    refine ⟨d, i + 1, j, rfl, hc', ?_⟩
    rw [← hr, List.replicate_succ', List.append_assoc, List.singleton_append]
  | .atom a => by
    refine tailInj_of_not_paren fun c' r r' hc' he ht => ?_
    cases c' with
    | atom a' =>
      obtain ⟨h, rfl⟩ := List.cons.inj ht
      cases h
      exact ⟨rfl, rfl⟩
    | paren d => exact absurd rfl (hc' d)
    | _ => cases he
  | .vararg => by
    refine tailInj_of_not_paren fun c' r r' hc' he ht => ?_
    cases c' with
    | vararg => exact ⟨rfl, (List.cons.inj ht).2⟩
    | paren d => exact absurd rfl (hc' d)
    | _ => cases he
  | .name x => by
    refine tailInj_of_not_paren fun c' r r' hc' he ht => ?_
    cases c' with
    | name x' =>
      obtain ⟨h, rfl⟩ := List.cons.inj ht
      cases h
      exact ⟨rfl, rfl⟩
    | paren d => exact absurd rfl (hc' d)
    | _ => cases he
  | .unop o c => by
    refine tailInj_of_not_paren fun c' r r' hc' he ht => ?_
    cases c' with
    | unop o' d =>
      obtain ⟨rfl, hec⟩ := Exp.unop.inj he
      obtain ⟨rfl, rfl⟩ := (tailInj c).of_yield hec (List.cons.inj ht).2
      exact ⟨rfl, rfl⟩
    | paren d => exact absurd rfl (hc' d)
    | _ => cases he
  | .binop o a b => by
    refine tailInj_of_not_paren fun c' r r' hc' he ht => ?_
    cases c' with
    | binop o' a' b' =>
      obtain ⟨rfl, hea, heb⟩ := Exp.binop.inj he
      simp only [Cst.tail, List.append_assoc, List.cons_append] at ht
      obtain ⟨rfl, hr⟩ := (tailInj a).of_cons hea ht nofun nofun
      obtain ⟨rfl, rfl⟩ := (tailInj b).of_yield heb (List.cons.inj hr).2
      exact ⟨rfl, rfl⟩
    | paren d => exact absurd rfl (hc' d)
    | _ => cases he
  | .index c k => by
    refine tailInj_of_not_paren fun c' r r' hc' he ht => ?_
    cases c' with
    | index d k' =>
      obtain ⟨hec, hek⟩ := Exp.index.inj he
      simp only [Cst.tail, List.append_assoc, List.cons_append, List.nil_append] at ht
      obtain ⟨rfl, hr⟩ := (tailInj c).of_cons hec ht nofun nofun
      obtain ⟨rfl, hk⟩ := (tailInj k).of_yield hek (List.cons.inj hr).2
      exact ⟨rfl, (List.cons.inj hk).2⟩
    | paren d => exact absurd rfl (hc' d)
    | _ => cases he
  | .dot c x => by
    refine tailInj_of_not_paren fun c' r r' hc' he ht => ?_
    cases c' with
    | dot d x' =>
      obtain ⟨hec, rfl⟩ := Exp.dot.inj he
      simp only [Cst.tail, List.append_assoc, List.cons_append, List.nil_append] at ht
      obtain ⟨rfl, hr⟩ := (tailInj c).of_cons hec ht nofun nofun
      exact ⟨rfl, (List.cons.inj (List.cons.inj hr).2).2⟩
    | paren d => exact absurd rfl (hc' d)
    | _ => cases he
  | .call c m args => by
    refine tailInj_of_not_paren fun c' r r' hc' he ht => ?_
    cases c' with
    | call d m' args' =>
      obtain ⟨hec, hm, hargs, -⟩ := Exp.call.inj he
      simp only [Cst.tail, List.append_assoc, List.cons_append, List.nil_append] at ht
      obtain ⟨rfl, hr⟩ := (tailInj c).of_method hec hm ht nofun nofun
      obtain ⟨rfl, rfl⟩ := eq_of_yields args args' r r' hargs (List.cons.inj hr).2
      exact ⟨by rw [hm], rfl⟩
    | callAtom d m' a =>
      obtain ⟨hec, hm, -, -⟩ := Exp.call.inj he
      simp only [Cst.tail, List.append_assoc, List.cons_append, List.nil_append] at ht
      obtain ⟨-, hr⟩ := (tailInj c).of_method hec hm ht nofun nofun
      cases hr
    | paren d => exact absurd rfl (hc' d)
    | _ => cases he
  | .callAtom c m a => by
    refine tailInj_of_not_paren fun c' r r' hc' he ht => ?_
    cases c' with
    | call d m' args' =>
      obtain ⟨hec, hm, -, -⟩ := Exp.call.inj he
      simp only [Cst.tail, List.append_assoc, List.cons_append, List.nil_append] at ht
      obtain ⟨-, hr⟩ := (tailInj c).of_method hec hm ht nofun nofun
      cases hr
    | callAtom d m' a' =>
      obtain ⟨hec, hm, -, -⟩ := Exp.call.inj he
      simp only [Cst.tail, List.append_assoc, List.cons_append, List.nil_append] at ht
      obtain ⟨rfl, hr⟩ := (tailInj c).of_method hec hm ht nofun nofun
      obtain ⟨ha, rfl⟩ := List.cons.inj hr
      cases ha
      exact ⟨by rw [hm], rfl⟩
    | paren d => exact absurd rfl (hc' d)
    | _ => cases he

theorem eq_of_yields : ∀ (cs cs' : Csts) (r r' : List Token), cs.exps.shape = cs'.exps.shape →
    cs.yield ++ .rparen :: r = cs'.yield ++ .rparen :: r' → cs = cs' ∧ r = r'
  | .nil, .nil, r, r', _, h => ⟨rfl, (List.cons.inj h).2⟩
  | .cons c cs, .cons c' cs', r, r', he, h => by
    obtain ⟨hec, hecs⟩ := Exps.cons.inj he
    simp only [Csts.yield, List.append_assoc] at h
    obtain ⟨rfl, hr⟩ := (tailInj c).of_yield hec h
    cases cs with
    | nil =>
      cases cs' with
      | nil => exact ⟨rfl, (List.cons.inj hr).2⟩
      | cons d ds => cases hecs
    | cons d ds =>
      cases cs' with
      | nil => cases hecs
      | cons d' ds' =>
        obtain ⟨hcs, rfl⟩ := eq_of_yields (.cons d ds) (.cons d' ds') r r' hecs
          (List.cons.inj hr).2
        exact ⟨congrArg (Csts.cons c) hcs, rfl⟩

end

/-- Parentheses do not move: the tokens and the shape say where they are. -/
theorem eq_of_shape_of_yield {c' : Cst} (he : c.exp.shape = c'.exp.shape) (hy : c.yield = c'.yield) : c = c' := by
  have hnil : c.yield ++ [] = c'.yield ++ [] := by rw [hy]
  exact ((tailInj c).of_yield he hnil).1

end

/-! ### Long brackets -/

/-- What the lexer makes of a bracket, the long string behind it and the text that follows: a string
that begins with the two brackets, and the tokens behind it. -/
abbrev Joined := ℕ → String → List Token → Option (String × List Token)

/-- The tokens that are read from a text of tokens, of which no others join. -/
def lex (joined : Joined) : List Token → Option (List Token)
  | .lbrack :: .atom (.longString level s) :: ts =>
    (joined level s ts).map fun r => .atom (.longString 0 r.1) :: r.2
  | t :: ts => (lex joined ts).map (t :: ·)
  | [] => some []

def Token.isLong : Token → Bool
  | .atom (.longString ..) => true
  | _ => false

/-- No long string comes behind a bracket; `bracket` says whether there is one before the text. -/
def Apart : Bool → List Token → Prop
  | _, [] => True
  | bracket, t :: ts => (bracket = true → t.isLong = false) ∧ Apart (t = .lbrack) ts

/-- A text is read as it is, or from some bracket on as a string. -/
theorem apart_or_of_lex {joined : Joined} {ts us : List Token} (h : lex joined ts = some us) :
    us = ts ∨ ∃ pre a post us', ts = pre ++ .lbrack :: post ∧ us = pre ++ .atom a :: us' := by
  induction ts using lex.induct generalizing us with
  | case1 level s ts =>
    rw [lex, Option.map_eq_some_iff] at h
    obtain ⟨r, -, rfl⟩ := h
    exact .inr ⟨[], _, _, _, rfl, rfl⟩
  | case2 t ts hne ih =>
    rw [lex, Option.map_eq_some_iff] at h
    · obtain ⟨vs, hvs, rfl⟩ := h
      rcases ih hvs with rfl | ⟨pre, a, post, us', rfl, rfl⟩
      · exact .inl rfl
      · exact .inr ⟨t :: pre, a, post, us', rfl, rfl⟩
    · exact hne
  | case3 =>
    rw [lex, Option.some.injEq] at h
    exact .inl h.symm

theorem Apart.mono {bracket : Bool} {ts : List Token} (h : Apart bracket ts) : Apart false ts := by
  cases ts with
  | nil => trivial
  | cons t ts => exact ⟨nofun, h.2⟩

theorem Apart.lex_eq {joined : Joined} {ts : List Token} (h : Apart false ts) :
    lex joined ts = some ts := by
  induction ts using lex.induct with
  | case1 level s ts => exact absurd (h.2.1 rfl) nofun
  | case2 t ts hne ih =>
    rw [lex, ih h.2.mono, Option.map_some]
    exact hne
  | case3 => rfl

/-- Where a text is read as it is, nothing in it has joined. -/
theorem apart_of_lex_eq {joined : Joined} {ts : List Token} (h : lex joined ts = some ts) :
    Apart false ts := by
  induction ts using lex.induct with
  | case1 level s ts =>
    rw [lex, Option.map_eq_some_iff] at h
    obtain ⟨r, -, hr⟩ := h
    cases hr
  | case2 t ts hne ih =>
    rw [lex, Option.map_eq_some_iff] at h
    · obtain ⟨us, hus, heq⟩ := h
      obtain rfl := (List.cons.inj heq).2
      refine ⟨nofun, ?_⟩
      have hts := ih hus
      cases us with
      | nil => trivial
      | cons u us =>
        refine ⟨fun hbracket => ?_, hts.2⟩
        cases hu : u.isLong with
        | false => rfl
        | true =>
          unfold Token.isLong at hu
          split at hu
          · exact absurd rfl (hne _ _ _ (of_decide_eq_true hbracket))
          · cases hu
    · exact hne
  | case3 => trivial

/-- The text of the tree begins with a long string. -/
def Cst.opensLong : Cst → Bool
  | .atom a => (Token.atom a).isLong
  | .vararg | .name _ | .paren _ | .unop .. => false
  | .binop _ c _ | .index c _ | .dot c _ | .call c _ _ | .callAtom c _ _ => c.opensLong

mutual

/-- No key begins with a long string. -/
def Cst.KeysApart : Cst → Prop
  | .atom _ | .vararg | .name _ => True
  | .paren c | .unop _ c | .dot c _ | .callAtom c _ _ => c.KeysApart
  | .binop _ a b => a.KeysApart ∧ b.KeysApart
  | .index c k => c.KeysApart ∧ k.opensLong = false ∧ k.KeysApart
  | .call c _ args => c.KeysApart ∧ args.KeysApart

def Csts.KeysApart : Csts → Prop
  | .nil => True
  | .cons c cs => c.KeysApart ∧ cs.KeysApart

end

theorem apart_method {m : Option String} {ts : List Token} :
    Apart false (methodTokens m ++ ts) ↔ Apart false ts := by
  cases m <;> simp [methodTokens, Apart]

mutual

theorem apart_yield : ∀ (c : Cst) (bracket : Bool) (ts : List Token),
    Apart bracket (c.yield ++ ts) ↔
      (bracket = true → c.opensLong = false) ∧ c.KeysApart ∧ Apart false ts
  | .atom a, bracket, ts => by
    simp [Cst.yield, Apart, Cst.opensLong, Cst.KeysApart]
  | .vararg, bracket, ts | .name x, bracket, ts => by
    simp [Cst.yield, Apart, Cst.opensLong, Cst.KeysApart, Token.isLong]
  | .paren c, bracket, ts => by
    simp [Cst.yield, Apart, Cst.opensLong, Cst.KeysApart, Token.isLong, apart_yield c]
  | .unop o c, bracket, ts => by
    have hlong : o.token.isLong = false ∧ o.token ≠ .lbrack := by cases o <;> exact ⟨rfl, nofun⟩
    simp [Cst.yield, Apart, Cst.opensLong, Cst.KeysApart, hlong, apart_yield c]
  | .binop o a b, bracket, ts => by
    simp [Cst.yield, Apart, Cst.opensLong, Cst.KeysApart, Token.isLong, apart_yield a,
      apart_yield b, and_assoc]
  | .index c k, bracket, ts => by
    simp [Cst.yield, Apart, Cst.opensLong, Cst.KeysApart, Token.isLong, apart_yield c,
      apart_yield k, and_assoc]
  | .dot c x, bracket, ts => by
    simp [Cst.yield, Apart, Cst.opensLong, Cst.KeysApart, Token.isLong, apart_yield c]
  | .call c m args, bracket, ts => by
    simp [Cst.yield, Apart, Cst.opensLong, Cst.KeysApart, Token.isLong, apart_yield c,
      apart_method, apart_yields args, and_assoc]
  | .callAtom c m a, bracket, ts => by
    simp [Cst.yield, Apart, Cst.opensLong, Cst.KeysApart, Token.isLong, apart_yield c,
      apart_method]

theorem apart_yields : ∀ (cs : Csts) (ts : List Token),
    Apart false (cs.yield ++ ts) ↔ cs.KeysApart ∧ Apart false ts
  | .nil, ts => by simp [Csts.yield, Csts.KeysApart]
  | .cons c .nil, ts => by simp [Csts.yield, Csts.KeysApart, apart_yield c]
  | .cons c (.cons d cs), ts => by
    have hrest := apart_yields (.cons d cs) ts
    rw [Csts.yield, List.append_assoc, apart_yield c]
    simp only [List.cons_append, Apart]
    simp [hrest, Csts.KeysApart, and_assoc]

end

theorem apart_iff (c : Cst) : Apart false c.yield ↔ c.KeysApart := by
  have h := apart_yield c false []
  rw [List.append_nil] at h
  simpa [Apart] using h

/-! ### Tokens without parentheses -/

def Token.isParen : Token → Bool
  | .lparen | .rparen => true
  | _ => false

def bare (ts : List Token) : List Token := ts.filter fun t => !t.isParen

theorem bare_append (ts us : List Token) : bare (ts ++ us) = bare ts ++ bare us :=
  List.filter_append ..

theorem bare_cons {t : Token} (h : t.isParen = false) (ts : List Token) :
    bare (t :: ts) = t :: bare ts :=
  List.filter_cons_of_pos (by rw [h]; rfl)

theorem bare_paren (ts : List Token) : bare (.lparen :: (ts ++ [.rparen])) = bare ts :=
  (bare_append ts [.rparen]).trans (List.append_nil _)

theorem bare_method (m : Option String) : bare (methodTokens m) = methodTokens m := by
  cases m <;> rfl

mutual

def Exp.tokens : Exp → List Token
  | .atom a => [.atom a]
  | .vararg => [.vararg]
  | .name x => [.name x]
  | .unop o e => o.token :: e.tokens
  | .binop o a b => a.tokens ++ .bin o :: b.tokens
  | .index e k => e.tokens ++ .lbrack :: (k.tokens ++ [.rbrack])
  | .dot e x => e.tokens ++ [.dot, .name x]
  | .call e m args _ => e.tokens ++ (methodTokens m ++ args.tokens)

def Exps.tokens : Exps → List Token
  | .nil => []
  | .cons e es =>
    e.tokens ++
      match es with
      | .nil => []
      | .cons .. => .comma :: es.tokens

end

mutual

/-- An expression has the tokens of every tree that means it, but for parentheses. -/
theorem bare_yield : ∀ c : Cst, bare c.yield = c.exp.tokens
  | .atom _ | .vararg | .name _ => rfl
  | .paren c => (bare_paren c.yield).trans (bare_yield c)
  | .unop o c => by
    rw [Cst.yield, bare_cons (by cases o <;> rfl), bare_yield c]
    rfl
  | .binop o a b => by
    rw [Cst.yield, bare_append, bare_cons rfl, bare_yield a, bare_yield b]
    rfl
  | .index c k => by
    rw [Cst.yield, bare_append, bare_cons rfl, bare_append, bare_yield c, bare_yield k]
    rfl
  | .dot c x => by
    rw [Cst.yield, bare_append, bare_yield c]
    rfl
  | .call c m args => by
    rw [Cst.yield, bare_append, bare_append, bare_paren, bare_method, bare_yield c,
      bare_yields args]
    rfl
  | .callAtom c m a => by
    rw [Cst.yield, bare_append, bare_append, bare_method, bare_yield c]
    rfl

theorem bare_yields : ∀ cs : Csts, bare cs.yield = cs.exps.tokens
  | .nil => rfl
  | .cons c .nil => by
    rw [Csts.yield, List.append_nil, bare_yield c]
    exact (List.append_nil _).symm
  | .cons c (.cons d cs) => by
    have hrest := bare_yields (.cons d cs)
    rw [Csts.yield, bare_append, bare_cons rfl, hrest, bare_yield c]
    rfl

end

mutual

theorem tokens_shape : ∀ e : Exp, e.shape.tokens = e.tokens
  | .atom _ | .vararg | .name _ => rfl
  | .unop o e => congrArg (o.token :: ·) (tokens_shape e)
  | .binop o a b =>
    congrArg₂ (fun ts us => ts ++ Token.bin o :: us) (tokens_shape a) (tokens_shape b)
  | .index e k =>
    congrArg₂ (fun ts us => ts ++ Token.lbrack :: (us ++ [Token.rbrack])) (tokens_shape e) (tokens_shape k)
  | .dot e x => congrArg (· ++ [Token.dot, .name x]) (tokens_shape e)
  | .call e m args _ =>
    congrArg₂ (fun ts us => ts ++ (methodTokens m ++ us)) (tokens_shape e) (tokens_shapes args)

theorem tokens_shapes : ∀ es : Exps, es.shape.tokens = es.tokens
  | .nil => rfl
  | .cons e .nil => congrArg (· ++ []) (tokens_shape e)
  | .cons e (.cons d es) =>
    congrArg₂ (fun ts us => ts ++ Token.comma :: us) (tokens_shape e) (tokens_shapes (.cons d es))

end

end Dir842.LuaSyntax
