import Dir842.Lib.Fuel
import Dir842.Lua.Syntax

/-!
# The expression parser of Lua (`lparser.c`)

`subexpr`, `simpleexp`, `suffixedexp` and `funcargs` on a list of tokens. Each gives what it has read
and the tokens that are left; the first argument bounds the depth.
-/

namespace Dir842.LuaSyntax
open Fuel

def Token.unop : Token → Option UnOp
  | .not => some .not
  | .len => some .len
  | .bin .sub => some .neg
  | .bin .bxor => some .bnot
  | _ => none

/-- What was read before the closing token `t`. -/
def checkMatch {α : Type} (t : Token) : α × List Token → Option (α × List Token)
  | (a, u :: ts) => if u = t then some (a, ts) else none
  | (_, []) => none

mutual

def subexpr : ℕ → ℕ → List Token → Option (Cst × List Token)
  | 0, _, _ => none
  | _ + 1, _, [] => none
  | n + 1, limit, t :: ts =>
    match t.unop with
    | some o => (subexpr n unaryPriority ts).bind fun (c, ts) => binops n limit (.unop o c) ts
    | none => (simpleexp n (t :: ts)).bind fun (c, ts) => binops n limit c ts

/-- The loop over operators with priorities higher than `limit`. -/
def binops : ℕ → ℕ → Cst → List Token → Option (Cst × List Token)
  | 0, _, _, _ => none
  | n + 1, limit, a, .bin o :: ts =>
    if limit < o.left then
      (subexpr n o.right ts).bind fun (b, ts) => binops n limit (.binop o a b) ts
    else some (a, .bin o :: ts)
  | _ + 1, _, a, ts => some (a, ts)

def simpleexp : ℕ → List Token → Option (Cst × List Token)
  | 0, _ => none
  | _ + 1, .atom a :: ts => some (.atom a, ts)
  | _ + 1, .vararg :: ts => some (.vararg, ts)
  | n + 1, .name x :: ts => suffixes n (.name x) ts
  | n + 1, .lparen :: ts =>
    ((subexpr n 0 ts).bind (checkMatch .rparen)).bind fun (c, ts) => suffixes n (.paren c) ts
  | _ + 1, _ => none

/-- The loop of `suffixedexp`. -/
def suffixes : ℕ → Cst → List Token → Option (Cst × List Token)
  | 0, _, _ => none
  | n + 1, c, .dot :: .name x :: ts => suffixes n (.dot c x) ts
  | _ + 1, _, .dot :: _ => none
  | n + 1, c, .lbrack :: ts =>
    ((subexpr n 0 ts).bind (checkMatch .rbrack)).bind fun (k, ts) => suffixes n (.index c k) ts
  | n + 1, c, .colon :: .name x :: ts =>
    (funcargs n c (some x) ts).bind fun (c, ts) => suffixes n c ts
  | _ + 1, _, .colon :: _ => none
  | n + 1, c, .lparen :: ts =>
    (funcargs n c none (.lparen :: ts)).bind fun (c, ts) => suffixes n c ts
  | n + 1, c, .atom a :: ts =>
    if a.isArg then (funcargs n c none (.atom a :: ts)).bind fun (c, ts) => suffixes n c ts
    else some (c, .atom a :: ts)
  | _ + 1, c, ts => some (c, ts)

def funcargs : ℕ → Cst → Option String → List Token → Option (Cst × List Token)
  | 0, _, _, _ => none
  | _ + 1, c, m, .atom a :: ts => if a.isArg then some (.callAtom c m a, ts) else none
  | _ + 1, c, m, .lparen :: .rparen :: ts => some (.call c m .nil, ts)
  | n + 1, c, m, .lparen :: ts =>
    ((explist n ts).bind (checkMatch .rparen)).map fun (args, ts) => (.call c m args, ts)
  | _ + 1, _, _, _ => none

def explist : ℕ → List Token → Option (Csts × List Token)
  | 0, _ => none
  | n + 1, ts =>
    (subexpr n 0 ts).bind fun
      | (c, .comma :: ts) => (explist n ts).map fun (cs, ts) => (.cons c cs, ts)
      | (c, ts) => some (.cons c .nil, ts)

end

/-- What the parser makes of a whole text. -/
def Parses (ts : List Token) (c : Cst) : Prop := ∃ n, subexpr n 0 ts = some (c, [])

/-! ### What is read -/

theorem token_of_unop {t : Token} {o : UnOp} (h : t.unop = some o) : o.token = t := by
  unfold Token.unop at h
  split at h
  all_goals cases h
  all_goals rfl

theorem unop_token (o : UnOp) : o.token.unop = some o := by cases o <;> rfl

theorem checkMatch_eq_some {α : Type} {t : Token} {x : α × List Token} {a : α} {ts : List Token} :
    checkMatch t x = some (a, ts) ↔ x = (a, t :: ts) := by
  obtain ⟨b, us⟩ := x
  cases us with
  | nil => exact ⟨nofun, nofun⟩
  | cons u us =>
    rw [checkMatch, Option.ite_none_right_eq_some]
    constructor
    · rintro ⟨rfl, h⟩
      cases h
      rfl
    · intro h
      cases h
      exact ⟨rfl, rfl⟩

/-- The operator that follows, if there is one, is not the tree's. -/
def Stops (limit : ℕ) (c : Cst) (r : List Token) : Prop :=
  ∀ o ts, r = .bin o :: ts → o.left ≤ limit ∧ c.Closed o.left

/-- `c` is `a` and the tokens of `ts` up to `r`. -/
def Extends (a : Cst) (ts : List Token) (c : Cst) (r : List Token) : Prop :=
  ∃ v, ts = v ++ r ∧ c.yield = a.yield ++ v

theorem Cst.IsPrefix.above {c : Cst} (h : c.IsPrefix) (limit : ℕ) : c.Above limit := by
  cases c with
  | binop o a b => cases h
  | _ => trivial

theorem Cst.IsPrefix.closed {c : Cst} (h : c.IsPrefix) (left : ℕ) : c.Closed left := by
  cases c with
  | binop o a b => cases h
  | unop o a => cases h
  | _ => trivial

namespace Extends
variable {a b c : Cst} {ts us r : List Token}

theorem refl (c : Cst) (r : List Token) : Extends c r c r := ⟨[], rfl, (List.append_nil _).symm⟩

theorem trans (h : Extends a ts b us) (h' : Extends b us c r) : Extends a ts c r := by
  obtain ⟨v, rfl, hb⟩ := h
  obtain ⟨v', rfl, hc⟩ := h'
  exact ⟨v ++ v', by rw [List.append_assoc], by rw [hc, hb, List.append_assoc]⟩

theorem yield_append (h : Extends a ts c r) : a.yield ++ ts = c.yield ++ r := by
  obtain ⟨v, rfl, hc⟩ := h
  rw [hc, List.append_assoc]

end Extends

structure Sound (n : ℕ) : Prop where
  subexpr : ∀ {limit ts c r}, subexpr n limit ts = some (c, r) →
    ts = c.yield ++ r ∧ c.Ok ∧ c.Above limit ∧ Stops limit c r
  binops : ∀ {limit a ts c r}, a.Ok → a.Above limit →
    (∀ o us, ts = .bin o :: us → a.Closed o.left) → binops n limit a ts = some (c, r) →
    Extends a ts c r ∧ c.Ok ∧ c.Above limit ∧ Stops limit c r
  simpleexp : ∀ {ts c r}, simpleexp n ts = some (c, r) →
    ts = c.yield ++ r ∧ c.Ok ∧ (∀ limit, c.Above limit) ∧ ∀ left, c.Closed left
  suffixes : ∀ {a ts c r}, a.Ok → a.IsPrefix → suffixes n a ts = some (c, r) →
    Extends a ts c r ∧ c.Ok ∧ c.IsPrefix
  funcargs : ∀ {a m ts c r}, a.Ok → a.IsPrefix → funcargs n a m ts = some (c, r) →
    Extends a (methodTokens m ++ ts) c r ∧ c.Ok ∧ c.IsPrefix
  explist : ∀ {ts cs r}, explist n ts = some (cs, r) → ts = cs.yield ++ r ∧ cs.Ok ∧ cs ≠ .nil

section
variable {n limit : ℕ} {a c : Cst} {ts r : List Token}

theorem sound_subexpr (h : Sound n) (hread : subexpr (n + 1) limit ts = some (c, r)) :
    ts = c.yield ++ r ∧ c.Ok ∧ c.Above limit ∧ Stops limit c r := by
  cases ts with
  | nil => cases hread
  | cons t ts =>
    rw [subexpr] at hread
    split at hread
    · rename_i o ho
      obtain ⟨⟨a, us⟩, ha, hloop⟩ := Option.bind_eq_some_iff.mp hread
      obtain ⟨hts, hok, habove, hstops⟩ := h.subexpr ha
      have hclosed : ∀ o' vs, us = .bin o' :: vs → (Cst.unop o a).Closed o'.left :=
        fun o' vs hu => (hstops o' vs hu).1
      obtain ⟨hext, hc⟩ := h.binops (a := .unop o a) ⟨hok, habove⟩ trivial hclosed hloop
      refine ⟨?_, hc⟩
      rw [← hext.yield_append, Cst.yield, token_of_unop ho, hts, List.cons_append]
    · obtain ⟨⟨a, us⟩, ha, hloop⟩ := Option.bind_eq_some_iff.mp hread
      obtain ⟨hts, hok, habove, hclosed⟩ := h.simpleexp ha
      obtain ⟨hext, hc⟩ := h.binops hok (habove _) (fun o _ _ => hclosed o.left) hloop
      exact ⟨hts.trans hext.yield_append, hc⟩

theorem sound_binops (h : Sound n) (hok : a.Ok) (habove : a.Above limit)
    (hclosed : ∀ o us, ts = .bin o :: us → a.Closed o.left)
    (hread : binops (n + 1) limit a ts = some (c, r)) :
    Extends a ts c r ∧ c.Ok ∧ c.Above limit ∧ Stops limit c r := by
  by_cases hbin : ∃ o us, ts = .bin o :: us
  · obtain ⟨o, us, rfl⟩ := hbin
    rw [binops] at hread
    split at hread
    · rename_i hlimit
      obtain ⟨⟨b, vs⟩, hb, hloop⟩ := Option.bind_eq_some_iff.mp hread
      obtain ⟨rfl, hbok, hbabove, hstops⟩ := h.subexpr hb
      have hnext : (Cst.binop o a b).Ok := ⟨⟨hok, hclosed o _ rfl⟩, hbok, hbabove⟩
      have hlast : ∀ o' ws, vs = .bin o' :: ws → (Cst.binop o a b).Closed o'.left :=
        fun o' ws hu => (hstops o' ws hu).1
      obtain ⟨hext, hc⟩ := h.binops hnext hlimit hlast hloop
      exact ⟨.trans ⟨.bin o :: b.yield, rfl, rfl⟩ hext, hc⟩
    · rename_i hlimit
      cases hread
      refine ⟨.refl _ _, hok, habove, fun o' vs ho => ?_⟩
      cases ho
      exact ⟨Nat.le_of_not_lt hlimit, hclosed o _ rfl⟩
  · rw [binops] at hread
    · cases hread
      exact ⟨.refl _ _, hok, habove, fun o vs ho => absurd ⟨o, vs, ho⟩ hbin⟩
    · exact fun o us hts => hbin ⟨o, us, hts⟩

theorem sound_match {t : Token} {k : Cst} {vs : List Token} (h : Sound n)
    (hmatch : (subexpr n 0 ts).bind (checkMatch t) = some (k, vs)) :
    ts = k.yield ++ t :: vs ∧ k.Ok := by
  obtain ⟨x, hk, hclose⟩ := Option.bind_eq_some_iff.mp hmatch
  obtain rfl := checkMatch_eq_some.mp hclose
  obtain ⟨hts, hok, -, -⟩ := h.subexpr hk
  exact ⟨hts, hok⟩

theorem sound_simpleexp (h : Sound n) (hread : simpleexp (n + 1) ts = some (c, r)) :
    ts = c.yield ++ r ∧ c.Ok ∧ (∀ limit, c.Above limit) ∧ ∀ left, c.Closed left := by
  have hprefix : ∀ {a us vs}, a.Ok → a.IsPrefix → ts = a.yield ++ us →
      suffixes n a us = some (c, vs) →
      ts = c.yield ++ vs ∧ c.Ok ∧ (∀ limit, c.Above limit) ∧ ∀ left, c.Closed left := by
    intro a us vs hok hpre hts hloop
    obtain ⟨hext, hcok, hcpre⟩ := h.suffixes hok hpre hloop
    exact ⟨hts.trans hext.yield_append, hcok, hcpre.above, hcpre.closed⟩
  cases ts with
  | nil => cases hread
  | cons t us =>
    cases t with
    | atom a =>
      cases hread
      exact ⟨rfl, trivial, fun _ => trivial, fun _ => trivial⟩
    | vararg =>
      cases hread
      exact ⟨rfl, trivial, fun _ => trivial, fun _ => trivial⟩
    | name x => exact hprefix (a := .name x) trivial trivial rfl hread
    | lparen =>
      rw [simpleexp] at hread
      obtain ⟨⟨k, vs⟩, hmatch, hloop⟩ := Option.bind_eq_some_iff.mp hread
      obtain ⟨rfl, hok⟩ := sound_match h hmatch
      refine hprefix (a := .paren k) hok trivial ?_ hloop
      rw [Cst.yield, List.cons_append, List.append_assoc, List.singleton_append]
    | _ => cases hread

theorem sound_suffixes (h : Sound n) (hok : a.Ok) (hpre : a.IsPrefix)
    (hread : suffixes (n + 1) a ts = some (c, r)) : Extends a ts c r ∧ c.Ok ∧ c.IsPrefix := by
  -- one suffix, then the rest of the loop
  have hnext : ∀ {b us}, Extends a ts b us → b.Ok ∧ b.IsPrefix → suffixes n b us = some (c, r) →
      Extends a ts c r ∧ c.Ok ∧ c.IsPrefix := by
    intro b us hext hb hloop
    obtain ⟨hext', hc⟩ := h.suffixes hb.1 hb.2 hloop
    exact ⟨hext.trans hext', hc⟩
  have hend : some (a, ts) = some (c, r) → Extends a ts c r ∧ c.Ok ∧ c.IsPrefix := by
    intro heq
    cases heq
    exact ⟨.refl _ _, hok, hpre⟩
  have hargs : ((funcargs n a none ts).bind fun x => suffixes n x.1 x.2) = some (c, r) →
      Extends a ts c r ∧ c.Ok ∧ c.IsPrefix := by
    intro hbind
    obtain ⟨⟨b, us⟩, hb, hloop⟩ := Option.bind_eq_some_iff.mp hbind
    obtain ⟨hext, hb⟩ := h.funcargs hok hpre hb
    exact hnext hext hb hloop
  cases ts with
  | nil => exact hend hread
  | cons t us =>
    cases t with
    | dot =>
      cases us with
      | nil => cases hread
      | cons t us =>
        cases t with
        | name x => exact hnext (b := .dot a x) ⟨[.dot, .name x], rfl, rfl⟩ ⟨⟨hok, hpre⟩, trivial⟩ hread
        | _ => cases hread
    | lbrack =>
      rw [suffixes] at hread
      obtain ⟨⟨k, vs⟩, hmatch, hloop⟩ := Option.bind_eq_some_iff.mp hread
      obtain ⟨rfl, hkok⟩ := sound_match h hmatch
      refine hnext (b := .index a k) ⟨.lbrack :: (k.yield ++ [.rbrack]), ?_, rfl⟩
        ⟨⟨⟨hok, hpre⟩, hkok⟩, trivial⟩ hloop
      rw [List.cons_append, List.append_assoc, List.singleton_append]
    | colon =>
      cases us with
      | nil => cases hread
      | cons t us =>
        cases t with
        | name x =>
          rw [suffixes] at hread
          obtain ⟨⟨b, vs⟩, hb, hloop⟩ := Option.bind_eq_some_iff.mp hread
          obtain ⟨hext, hb⟩ := h.funcargs hok hpre hb
          exact hnext hext hb hloop
        | _ => cases hread
    | lparen => exact hargs hread
    | atom x =>
      rw [suffixes] at hread
      split at hread
      · exact hargs hread
      · exact hend hread
    | _ => exact hend hread

theorem sound_funcargs {m : Option String} (h : Sound n) (hok : a.Ok) (hpre : a.IsPrefix)
    (hread : funcargs (n + 1) a m ts = some (c, r)) :
    Extends a (methodTokens m ++ ts) c r ∧ c.Ok ∧ c.IsPrefix := by
  cases ts with
  | nil => cases hread
  | cons t us =>
    cases t with
    | atom x =>
      rw [funcargs] at hread
      split at hread
      · rename_i harg
        cases hread
        refine ⟨⟨methodTokens m ++ [.atom x], ?_, rfl⟩, ⟨⟨hok, hpre⟩, harg⟩, trivial⟩
        rw [List.append_assoc, List.singleton_append]
      · cases hread
    | lparen =>
      by_cases hnil : ∃ vs, us = .rparen :: vs
      · obtain ⟨vs, rfl⟩ := hnil
        cases hread
        refine ⟨⟨methodTokens m ++ [.lparen, .rparen], ?_, rfl⟩, ⟨⟨hok, hpre⟩, trivial⟩, trivial⟩
        rw [List.append_assoc]
        rfl
      · rw [funcargs] at hread
        · obtain ⟨⟨args, vs⟩, hmatch, heq⟩ := Option.map_eq_some_iff.mp hread
          obtain ⟨⟨args', ws⟩, hargs, hclose⟩ := Option.bind_eq_some_iff.mp hmatch
          cases checkMatch_eq_some.mp hclose
          obtain ⟨rfl, hargsok, -⟩ := h.explist hargs
          cases heq
          refine ⟨⟨methodTokens m ++ .lparen :: (args.yield ++ [.rparen]), ?_, rfl⟩,
            ⟨⟨hok, hpre⟩, hargsok⟩, trivial⟩
          simp only [List.append_assoc, List.cons_append, List.nil_append]
        · exact fun vs hvs => hnil ⟨vs, hvs⟩
    | _ => cases hread

theorem sound_explist {cs : Csts} (h : Sound n) (hread : explist (n + 1) ts = some (cs, r)) :
    ts = cs.yield ++ r ∧ cs.Ok ∧ cs ≠ .nil := by
  rw [explist] at hread
  obtain ⟨⟨c, us⟩, hc, hmatch⟩ := Option.bind_eq_some_iff.mp hread
  obtain ⟨rfl, hok, -, -⟩ := h.subexpr hc
  have hend : some (Csts.cons c .nil, us) = some (cs, r) →
      c.yield ++ us = cs.yield ++ r ∧ cs.Ok ∧ cs ≠ .nil := by
    intro heq
    cases heq
    exact ⟨by rw [Csts.yield, List.append_nil], ⟨hok, trivial⟩, nofun⟩
  cases us with
  | nil => exact hend hmatch
  | cons t us =>
    cases t with
    | comma =>
      obtain ⟨⟨ds, vs⟩, hds, heq⟩ := Option.map_eq_some_iff.mp hmatch
      obtain ⟨rfl, hdsok, hne⟩ := h.explist hds
      cases heq
      cases ds with
      | nil => exact absurd rfl hne
      | cons d ds => exact ⟨by rw [Csts.yield, List.append_assoc]; rfl, ⟨hok, hdsok⟩, nofun⟩
    | _ => exact hend hmatch

end

theorem sound : ∀ n, Sound n
  | 0 => ⟨nofun, fun _ _ _ => nofun, nofun, fun _ _ => nofun, fun _ _ => nofun, nofun⟩
  | n + 1 => {
      subexpr := sound_subexpr (sound n)
      binops := sound_binops (sound n)
      simpleexp := sound_simpleexp (sound n)
      suffixes := sound_suffixes (sound n)
      funcargs := sound_funcargs (sound n)
      explist := sound_explist (sound n) }

/-! ### What is not refused -/

/-- The loop of `suffixedexp` goes on. -/
def suffixStart : List Token → Bool
  | .dot :: _ | .lbrack :: _ | .colon :: _ | .lparen :: _ => true
  | .atom a :: _ => a.isArg
  | _ => false

theorem left_pos (o : BinOp) : 0 < o.left := by cases o <;> decide

theorem right_le_left (o : BinOp) : o.right ≤ o.left := by cases o <;> decide

theorem le_right_of_lt {o o' : BinOp} {limit : ℕ} (h : o'.left ≤ limit) (h' : limit < o.left) :
    o'.left ≤ o.right := by
  have hright : o.left ≤ o.right + 1 := by cases o <;> decide
  omega

theorem le_unary_of_le {o : BinOp} {limit : ℕ} (h : o.left ≤ limit) (hlimit : limit ≤ 13) :
    o.left ≤ unaryPriority := by
  have hleft : o.left ≤ 13 → o.left ≤ unaryPriority := by cases o <;> decide
  exact hleft (Nat.le_trans h hlimit)

theorem right_le (o : BinOp) : o.right ≤ 13 := by cases o <;> decide

theorem Cst.Above.closed {c : Cst} {limit : ℕ} {o : BinOp} (hc : c.Above limit)
    (hlimit : limit ≤ 13) (ho : o.left ≤ limit) : c.Closed o.left := by
  cases c with
  | binop o' a b => exact le_right_of_lt ho hc
  | unop o' a => exact le_unary_of_le ho hlimit
  | _ => trivial

theorem Cst.Closed.above {c : Cst} {limit : ℕ} {o : BinOp} (hc : c.Closed o.left)
    (ho : limit < o.left) : c.Above limit := by
  cases c with
  | binop o' a b => exact Nat.lt_of_lt_of_le ho (Nat.le_trans hc (right_le_left o'))
  | _ => trivial

section
variable {limit : ℕ} {c : Cst} {r : List Token} {x : Cst × List Token}

theorem gives_binops_end (h : ∀ o us, r = .bin o :: us → o.left ≤ limit) :
    Gives (binops · limit c r) (c, r) := by
  refine .of_succ (.congr .pure fun n => ?_)
  by_cases hbin : ∃ o us, r = .bin o :: us
  · obtain ⟨o, us, rfl⟩ := hbin
    rw [binops, if_neg (Nat.not_lt.mpr (h o us rfl))]
  · rw [binops]
    exact fun o us hr => hbin ⟨o, us, hr⟩

theorem gives_suffixes_end (h : suffixStart r = false) : Gives (suffixes · c r) (c, r) := by
  refine .of_succ (.congr .pure fun n => ?_)
  cases r with
  | nil => rfl
  | cons t ts =>
    cases t with
    | atom a =>
      rw [suffixes, if_neg]
      exact Bool.eq_false_iff.mp h
    | dot | lbrack | colon | lparen => cases h
    | _ => rfl

theorem simpleexp_of_unop {t : Token} {o : UnOp} (h : t.unop = some o) (n : ℕ) (ts : List Token) :
    simpleexp n (t :: ts) = none := by
  obtain rfl := token_of_unop h
  cases n with
  | zero => rfl
  | succ n => cases o <;> rfl

theorem gives_subexpr {ts us : List Token} (h : Gives (simpleexp · ts) (c, us))
    (hx : Gives (binops · limit c us) x) : Gives (subexpr · limit ts) x := by
  obtain ⟨n, hn⟩ := h.exists_eq
  cases ts with
  | nil => cases n <;> cases hn
  | cons t ts =>
    have hun : t.unop = none := by
      cases ht : t.unop with
      | none => rfl
      | some o => rw [simpleexp_of_unop ht] at hn; cases hn
    refine .of_succ (.congr (h.bind (g := fun n y => binops n limit y.1 y.2) hx) fun n => ?_)
    rw [subexpr, hun]

theorem gives_match {t : Token} {ts : List Token} {k : Cst}
    (h : Gives (subexpr · 0 ts) (k, t :: r)) :
    Gives (fun n => (subexpr n 0 ts).bind (checkMatch t)) (k, r) :=
  h.bind (.congr .pure fun _ => checkMatch_eq_some.mpr rfl)

/-- What follows does not belong to `c`. -/
structure Ends (c : Cst) (r : List Token) : Prop where
  suffixStart : suffixStart r = false
  closed : ∀ o us, r = .bin o :: us → c.Closed o.left

/-- The loops go on behind `c` as they would have begun with it. -/
structure Complete (c : Cst) : Prop where
  subexpr : ∀ {limit r x}, c.Above limit → Ends c r → Gives (binops · limit c r) x →
    Gives (subexpr · limit (c.yield ++ r)) x
  simpleexp : ∀ {r x}, c.IsPrefix → Gives (suffixes · c r) x →
    Gives (simpleexp · (c.yield ++ r)) x

theorem Complete.operand (h : Complete c) (habove : c.Above limit) (hlimit : limit ≤ 13)
    (hsuffix : suffixStart r = false) (hstop : ∀ o us, r = .bin o :: us → o.left ≤ limit) :
    Gives (LuaSyntax.subexpr · limit (c.yield ++ r)) (c, r) :=
  h.subexpr habove ⟨hsuffix, fun o us hr => habove.closed hlimit (hstop o us hr)⟩
    (gives_binops_end hstop)

theorem Cst.above_zero (c : Cst) : c.Above 0 := by
  cases c with
  | binop o a b => exact left_pos o
  | _ => trivial

/-- Between brackets. -/
theorem Complete.inner (h : Complete c) (hsuffix : suffixStart r = false)
    (hbin : ∀ o us, r ≠ .bin o :: us) : Gives (LuaSyntax.subexpr · 0 (c.yield ++ r)) (c, r) :=
  h.operand c.above_zero (Nat.zero_le 13) hsuffix fun o us hr => absurd hr (hbin o us)

theorem Complete.of_simpleexp
    (h : ∀ {r x}, c.IsPrefix → Gives (suffixes · c r) x → Gives (LuaSyntax.simpleexp · (c.yield ++ r)) x)
    (hpre : c.IsPrefix) : Complete c where
  simpleexp := h
  subexpr _ hends hx := gives_subexpr (h hpre (gives_suffixes_end hends.suffixStart)) hx

theorem complete_unop {o : UnOp} {a : Cst} (h : Complete a) (habove : a.Above unaryPriority) :
    Complete (.unop o a) where
  simpleexp hpre := nomatch hpre
  subexpr {limit r x} _ hends hx := by
    have hread := h.operand habove (by decide) hends.suffixStart hends.closed
    refine .of_succ (.congr (hread.bind (g := fun n y => binops n limit (.unop o y.1) y.2) hx)
      fun n => ?_)
    rw [Cst.yield, List.cons_append, subexpr, unop_token]

theorem complete_binop {o : BinOp} {a b : Cst} (ha : Complete a) (hb : Complete b)
    (hclosed : a.Closed o.left) (habove : b.Above o.right) : Complete (.binop o a b) where
  simpleexp hpre := nomatch hpre
  subexpr {limit r x} hlimit hends hx := by
    have hread := hb.operand habove (right_le o) hends.suffixStart hends.closed
    rw [Cst.yield, List.append_assoc, List.cons_append]
    refine ha.subexpr (hclosed.above hlimit) ⟨rfl, ?_⟩ (.of_succ (.congr
      (hread.bind (g := fun n y => binops n limit (.binop o a y.1) y.2) hx) fun n => ?_))
    · rintro o' us ⟨⟩
      exact hclosed
    · have hlt : limit < o.left := hlimit
      rw [binops, if_pos hlt]

theorem gives_paren {a : Cst} (h : Complete a) (hx : Gives (suffixes · (.paren a) r) x) :
    Gives (simpleexp · ((Cst.paren a).yield ++ r)) x := by
  have hread := gives_match (h.inner (r := .rparen :: r) rfl nofun)
  refine .of_succ (.congr (hread.bind (g := fun n y => suffixes n (.paren y.1) y.2) hx) fun n => ?_)
  rw [Cst.yield, List.cons_append, List.append_assoc, List.singleton_append, simpleexp]

theorem gives_index {a k : Cst} (hk : Complete k) (hx : Gives (suffixes · (.index a k) r) x) :
    Gives (suffixes · a (.lbrack :: (k.yield ++ .rbrack :: r))) x := by
  have hread := gives_match (hk.inner (r := .rbrack :: r) rfl nofun)
  refine .of_succ (.congr (hread.bind (g := fun n y => suffixes n (.index a y.1) y.2) hx)
    fun n => ?_)
  rw [suffixes]

theorem gives_call {a : Cst} {m : Option String} {t : Token} {ts : List Token}
    (ht : t = .lparen ∨ ∃ b, b.isArg = true ∧ t = .atom b)
    (hargs : Gives (funcargs · a m (t :: ts)) (c, r)) (hx : Gives (suffixes · c r) x) :
    Gives (suffixes · a (methodTokens m ++ t :: ts)) x := by
  refine .of_succ (.congr (hargs.bind (g := fun n y => suffixes n y.1 y.2) hx) fun n => ?_)
  cases m with
  | some y => rfl
  | none =>
    rcases ht with rfl | ⟨b, hb, rfl⟩
    · rfl
    · show suffixes (n + 1) a (.atom b :: ts) = _
      rw [suffixes, if_pos hb]

theorem yield_head (c : Cst) : ∃ t ts, c.yield = t :: ts ∧ t ≠ .rparen := by
  cases c with
  | atom | vararg | name | paren => exact ⟨_, _, rfl, Token.noConfusion⟩
  | unop o => exact ⟨_, _, rfl, by cases o <;> exact Token.noConfusion⟩
  | binop _ c | index c | dot c | call c | callAtom c =>
    obtain ⟨t, ts, hc, ht⟩ := yield_head c
    exact ⟨t, _, by rw [Cst.yield, hc]; rfl, ht⟩

/-- What `explist` does behind its first expression. -/
def explistRest (n : ℕ) : Cst × List Token → Option (Csts × List Token)
  | (c, .comma :: ts) => (explist n ts).map fun (cs, ts) => (.cons c cs, ts)
  | (c, ts) => some (.cons c .nil, ts)

/-- The arguments of a call are read up to its parenthesis. -/
def CompleteArgs (cs : Csts) : Prop := ∀ r : List Token,
  cs ≠ .nil → Gives (explist · (cs.yield ++ .rparen :: r)) (cs, .rparen :: r)

theorem gives_funcargs {a : Cst} {m : Option String} {args : Csts} (h : CompleteArgs args) :
    Gives (funcargs · a m (.lparen :: (args.yield ++ .rparen :: r))) (.call a m args, r) := by
  cases args with
  | nil => exact .of_succ .pure
  | cons c cs =>
    have hread := (h r nofun).bind (g := fun _ => checkMatch .rparen)
      (.congr .pure fun _ => checkMatch_eq_some.mpr rfl)
    obtain ⟨t, ts, hc, ht⟩ := yield_head c
    obtain ⟨us, hus⟩ : ∃ us, (Csts.cons c cs).yield = t :: us := by
      cases cs with
      | nil => exact ⟨_, by rw [Csts.yield, hc]; rfl⟩
      | cons d ds => exact ⟨_, by rw [Csts.yield, hc]; rfl⟩
    have hcall := hread.map (g := fun y => (Cst.call a m y.1, y.2))
    refine .of_succ (.congr hcall fun n => ?_)
    rw [hus, List.cons_append, funcargs]
    rintro vs ⟨⟩
    exact ht rfl

mutual

theorem complete : ∀ c : Cst, c.Ok → Complete c
  | .atom a, _ => {
      simpleexp := nofun
      subexpr := fun _ _ hx => gives_subexpr (.of_succ .pure) hx }
  | .vararg, _ => {
      simpleexp := nofun
      subexpr := fun _ _ hx => gives_subexpr (.of_succ .pure) hx }
  | .name y, _ => .of_simpleexp (fun _ hx => .of_succ hx) trivial
  | .paren c, hok => .of_simpleexp (fun _ hx => gives_paren (complete c hok) hx) trivial
  | .unop o c, hok => complete_unop (complete c hok.1) hok.2
  | .binop o a b, hok =>
    complete_binop (complete a hok.1.1) (complete b hok.2.1) hok.1.2 hok.2.2
  | .index c k, hok => by
    refine .of_simpleexp (fun _ hx => ?_) trivial
    have hloop := gives_index (complete k hok.2) hx
    have hread := (complete c hok.1.1).simpleexp hok.1.2 hloop
    simpa only [Cst.yield, List.append_assoc, List.cons_append, List.nil_append] using hread
  | .dot c y, hok => by
    refine .of_simpleexp (fun {r _} _ hx => ?_) trivial
    have hread := (complete c hok.1).simpleexp hok.2 (r := .dot :: .name y :: r) (.of_succ hx)
    simpa only [Cst.yield, List.append_assoc, List.cons_append, List.nil_append] using hread
  | .call c m args, hok => by
    refine .of_simpleexp (fun _ hx => ?_) trivial
    have hloop := gives_call (.inl rfl) (gives_funcargs (completes args hok.2)) hx
    have hread := (complete c hok.1.1).simpleexp hok.1.2 hloop
    simpa only [Cst.yield, List.append_assoc, List.cons_append, List.nil_append] using hread
  | .callAtom c m a, hok => by
    refine .of_simpleexp (fun {r _} _ hx => ?_) trivial
    have hargs : Gives (funcargs · c m (.atom a :: r)) (.callAtom c m a, r) :=
      .of_succ (.congr .pure fun n => by rw [funcargs, if_pos hok.2])
    have hloop := gives_call (.inr ⟨a, hok.2, rfl⟩) hargs hx
    have hread := (complete c hok.1.1).simpleexp hok.1.2 hloop
    simpa only [Cst.yield, List.append_assoc, List.cons_append, List.nil_append] using hread

theorem completes : ∀ cs : Csts, cs.Ok → CompleteArgs cs
  | .nil, _ => fun _ h => absurd rfl h
  | .cons c .nil, hok => by
    intro r _
    have hread := (complete c hok.1).inner (r := .rparen :: r) rfl nofun
    refine .of_succ (.congr (hread.bind (g := explistRest) .pure) fun n => ?_)
    rw [Csts.yield, List.append_nil]
    rfl
  | .cons c (.cons d ds), hok => by
    intro r _
    have hds := completes (.cons d ds) hok.2 r nofun
    have hread := (complete c hok.1).inner
      (r := .comma :: ((Csts.cons d ds).yield ++ .rparen :: r)) rfl nofun
    have hrest := hds.map (g := fun y => (Csts.cons c y.1, y.2))
    refine .of_succ (.congr (hread.bind (g := explistRest) hrest) fun n => ?_)
    rw [Csts.yield, List.append_assoc, List.cons_append]
    rfl

end

/-- The parser reads a tree from its tokens if the parentheses of the tree are right. -/
theorem parses_iff {ts : List Token} : Parses ts c ↔ c.Ok ∧ c.yield = ts := by
  constructor
  · rintro ⟨n, hn⟩
    obtain ⟨rfl, hok, -, -⟩ := (sound n).subexpr hn
    exact ⟨hok, (List.append_nil _).symm⟩
  · rintro ⟨hok, rfl⟩
    have hread := (complete c hok).inner (r := []) rfl nofun
    rw [List.append_nil] at hread
    exact hread.exists_eq

theorem Parses.unique {ts : List Token} {c' : Cst} (h : Parses ts c) (h' : Parses ts c') :
    c = c' := by
  obtain ⟨hok, rfl⟩ := parses_iff.mp h
  obtain ⟨hok', heq⟩ := parses_iff.mp h'
  have hread := (complete c hok).inner (r := []) rfl nofun
  have hread' := (complete c' hok').inner (r := []) rfl nofun
  rw [heq] at hread'
  exact congrArg Prod.fst (hread.unique hread')

end

end Dir842.LuaSyntax
