import Dir842.Lua.Parens

/-!
# Expressions in `tl.pretty_print_ast`

The printer of Teal prints Lua: casts are left out, and so are, with the patch, the parentheses
around them. A text is its tokens, of which a bracket and a string in long brackets join; the parser
puts no cast around an operator without parentheses, so that no two minus signs come together where
parentheses are left out.
-/

namespace Dir842.Teal
open LuaSyntax

/-! ### Nodes -/

mutual

inductive Node
  | atom (a : Atom)
  | vararg
  | variable (tk : String)
  | paren (e : Node)
  | unop (o : UnOp) (e : Node)
  | binop (o : BinOp) (a b : Node)
  | as (e : Node)
  | is (e : Node) (type : String)
  | index (e k : Node)
  | dot (e : Node) (x : String)
  /-- `@funcall`, of `e:m` if there is a method `m`. -/
  | funcall (e : Node) (m : Option String) (args : Nodes)

inductive Nodes
  | nil
  | cons (e : Node) (es : Nodes)

end

inductive Op
  | unary (o : UnOp)
  | binary (o : BinOp)
  | is | as | funcall | index | dot | colon
deriving DecidableEq

/-- The table of the parser. -/
def precedences : Op → ℕ
  | .unary _ => 11
  | .binary .or => 1
  | .binary .and => 2
  | .is => 3
  | .binary .lt | .binary .gt | .binary .le | .binary .ge | .binary .ne | .binary .eq => 3
  | .binary .bor => 4
  | .binary .bxor => 5
  | .binary .band => 6
  | .binary .shl | .binary .shr => 7
  | .binary .concat => 8
  | .binary .add | .binary .sub => 9
  | .binary .mul | .binary .div | .binary .idiv | .binary .mod => 10
  | .binary .pow => 12
  | .as => 50
  | .funcall | .index | .dot | .colon => 100

namespace Node

def op : Node → Option Op
  | unop o _ => some (.unary o)
  | binop o _ _ => some (.binary o)
  | as _ => some .as
  | is _ _ => some .is
  | index _ _ => some .index
  | dot _ _ => some .dot
  | funcall .. => some .funcall
  | _ => none

def isString : Node → Bool
  | atom (.string _) | atom (.longString ..) => true
  | _ => false

def isAs : Node → Bool
  | as _ => true
  | _ => false

end Node

/-! ### The printer -/

section
variable (prec : Op → ℕ)

/-- An operand of `o` that is printed in parentheses of its own. -/
def wraps (o : Op) (e : Node) : Bool :=
  o = .colon && e.isString ||
    match e.op with
    | some o' => prec o' < prec o
    | none => false

structure Output where
  pieces : List Token
  isCast : Bool

def wrapPieces (o : Op) (e : Node) (pieces : List Token) : List Token :=
  if wraps prec o e then .lparen :: (pieces ++ [.rparen]) else pieces

variable (patched : Bool)

mutual

def Node.print : Node → Output
  | .atom a => ⟨[.atom a], false⟩
  | .vararg => ⟨[.vararg], false⟩
  | .variable tk => ⟨[.name tk], false⟩
  | .paren e =>
    let child := e.print
    let out := .lparen :: child.pieces
    if patched && child.isCast then ⟨out.tail, false⟩ else ⟨out ++ [.rparen], false⟩
  | .unop o e => ⟨o.token :: wrapPieces prec (.unary o) e e.print.pieces, false⟩
  | .binop o a b =>
    ⟨wrapPieces prec (.binary o) a a.print.pieces ++
      .bin o :: wrapPieces prec (.binary o) b b.print.pieces, false⟩
  | .as e => ⟨e.print.pieces, true⟩
  | .is e type =>
    ⟨.name "type" :: .lparen :: (e.print.pieces ++ [.rparen, .bin .eq, .atom (.string type)]), false⟩
  | .index e k => ⟨e.print.pieces ++ .lbrack :: (k.print.pieces ++ [.rbrack]), false⟩
  | .dot e x => ⟨wrapPieces prec .dot e e.print.pieces ++ [.dot, .name x], false⟩
  | .funcall e none args => ⟨e.print.pieces ++ .lparen :: (args.print ++ [.rparen]), false⟩
  | .funcall e (some m) args =>
    ⟨wrapPieces prec .colon e e.print.pieces ++
      .colon :: .name m :: .lparen :: (args.print ++ [.rparen]), false⟩

def Nodes.print : Nodes → List Token
  | .nil => []
  | .cons e .nil => e.print.pieces
  | .cons e es => e.print.pieces ++ .comma :: es.print

end

end

/-! ### What is printed, as a tree -/

section
variable (prec : Op → ℕ)

def wrapMarked (o : Op) (e : Node) (m : Marked) : Marked :=
  if wraps prec o e then .paren false m else m

mutual

/-- The parentheses around a cast are marked. -/
def Node.marked : Node → Marked
  | .atom a => .atom a
  | .vararg => .vararg
  | .variable tk => .name tk
  | .paren e => .paren e.isAs e.marked
  | .unop o e => .unop o (wrapMarked prec (.unary o) e e.marked)
  | .binop o a b =>
    .binop o (wrapMarked prec (.binary o) a a.marked) (wrapMarked prec (.binary o) b b.marked)
  | .as e => e.marked
  | .is e type =>
    .binop .eq (.call (.name "type") none (.cons e.marked .nil)) (.atom (.string type))
  | .index e k => .index e.marked k.marked
  | .dot e x => .dot (wrapMarked prec .dot e e.marked) x
  | .funcall e none args => .call e.marked none args.marked
  | .funcall e (some m) args => .call (wrapMarked prec .colon e e.marked) (some m) args.marked

def Nodes.marked : Nodes → Markeds
  | .nil => .nil
  | .cons e es => .cons e.marked es.marked

end

variable (patched : Bool)

theorem wrapPieces_yield (o : Op) (e : Node) (m : Marked) :
    wrapPieces prec o e (m.tree patched).yield = ((wrapMarked prec o e m).tree patched).yield := by
  unfold wrapPieces wrapMarked
  split
  · rw [Marked.tree, Bool.and_false]
    rfl
  · rfl

theorem print_isCast (e : Node) : (e.print prec patched).isCast = e.isAs := by
  cases e with
  | paren e =>
    rw [Node.print]
    split <;> rfl
  | funcall e m args => cases m <;> rfl
  | _ => rfl

mutual

theorem print_pieces : ∀ e : Node,
    (e.print prec patched).pieces = ((e.marked prec).tree patched).yield
  | .atom _ | .vararg | .variable _ => rfl
  | .paren e => by
    rw [Node.print, Node.marked, Marked.tree, print_isCast]
    split
    · exact print_pieces e
    · rw [Cst.yield, ← print_pieces e, List.cons_append]
  | .unop o e => by
    rw [Node.print, Node.marked, Marked.tree, Cst.yield, ← wrapPieces_yield, ← print_pieces e]
  | .binop o a b => by
    rw [Node.print, Node.marked, Marked.tree, Cst.yield, ← wrapPieces_yield, ← wrapPieces_yield,
      ← print_pieces a, ← print_pieces b]
  | .as e => print_pieces e
  | .is e type => by
    rw [Node.print, print_pieces e]
    simp only [Node.marked, Marked.tree, Markeds.tree, Cst.yield, Csts.yield, methodTokens,
      List.append_nil, List.append_assoc, List.cons_append, List.nil_append]
  | .index e k => by
    rw [Node.print, Node.marked, Marked.tree, Cst.yield, ← print_pieces e, ← print_pieces k]
  | .dot e x => by
    rw [Node.print, Node.marked, Marked.tree, Cst.yield, ← wrapPieces_yield, ← print_pieces e]
  | .funcall e none args => by
    rw [Node.print, Node.marked, Marked.tree, Cst.yield, ← print_pieces e, ← print_nodes args]
    rfl
  | .funcall e (some m) args => by
    rw [Node.print, Node.marked, Marked.tree, Cst.yield, ← wrapPieces_yield, ← print_pieces e,
      ← print_nodes args]
    rfl

theorem print_nodes : ∀ es : Nodes,
    es.print prec patched = ((es.marked prec).tree patched).yield
  | .nil => rfl
  | .cons e .nil => by
    rw [Nodes.print, Nodes.marked, Nodes.marked, Markeds.tree, Markeds.tree, Csts.yield,
      List.append_nil, print_pieces e]
  | .cons e (.cons e' es) => by
    rw [Nodes.print, print_pieces e, print_nodes (.cons e' es)]
    · rfl
    · exact nofun

end

/-! ### What is read -/

variable (joined : Joined)

/-- What is printed is the same expression of Lua with and without the parentheses. -/
def Node.KeepsMeaning (e : Node) : Prop :=
  ∃ c c', Reading joined (e.print prec true).pieces c ∧
    Reading joined (e.print prec false).pieces c' ∧ c.meaning = c'.meaning

theorem keepsMeaning_marked (e : Node) :
    e.KeepsMeaning prec joined ↔ KeepsText joined (e.marked prec).yield := by
  unfold Node.KeepsMeaning KeepsText
  rw [print_pieces, print_pieces, text_yield, text_yield]

/-- The keys begin with no long string. In what is read with all parentheses, those around casts are
where they may be left out. What is read is the tree itself if the other parentheses are right. -/
theorem print_keepsMeaning_iff (e : Node) :
    (((e.marked prec).tree false).KeysApart ∧ e.KeepsMeaning prec joined ↔
      ((e.marked prec).tree true).KeysApart ∧
        ∃ m : Marked, m.IsRead (e.marked prec).yield ∧ m.Safe .whole) ∧
    (((e.marked prec).tree false).Ok →
      (((e.marked prec).tree false).KeysApart ∧ e.KeepsMeaning prec joined ↔
        ((e.marked prec).tree true).KeysApart ∧ (e.marked prec).Safe .whole)) := by
  rw [keepsMeaning_marked, keepsText_iff]
  exact ⟨and_congr_right fun _ => keepsMeaning_iff (e.marked prec),
    fun hok => and_congr_right fun _ => keepsMeaning_of_ok hok⟩

end

/-- `(f() as T)` -/
def castCall : Node := .paren (.as (.funcall (.variable "f") none .nil))

/-- All the values of `f` are passed on. -/
theorem not_keepsMeaning :
    ¬ ∃ joined : Joined, ∀ e : Node, e.KeepsMeaning precedences joined := by
  rintro ⟨joined, h⟩
  have hok : ((castCall.marked precedences).tree false).Ok := ⟨⟨trivial, trivial⟩, trivial⟩
  have hapart : ((castCall.marked precedences).tree false).KeysApart := ⟨trivial, trivial⟩
  have hkeeps := (keepsText_iff joined (castCall.marked precedences)).mp
    ⟨hapart, (keepsMeaning_marked precedences joined castCall).mp (h castCall)⟩
  obtain ⟨hcall, -⟩ := (keepsMeaning_of_ok hok).mp hkeeps.2
  exact Bool.noConfusion ((hcall rfl).2 rfl)

end Dir842.Teal
