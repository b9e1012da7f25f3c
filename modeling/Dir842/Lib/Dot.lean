import Mathlib.Data.Char
import Mathlib.Data.List.Basic

/-!
# The text of a graph

A fragment of the language of `dot`: directed graphs of nodes with attributes and of edges without,
where only the values of attributes are quoted. A node is named by an identifier, which is a name or
a numeral. It ends where the next character does not belong to it, and another may begin there:
`12ab` is `12` and `ab`.
-/

namespace Dot

inductive Token
  | id (w : List Char)
  | keyword (w : List Char)
  | quoted (s : List Char)
  | arrow
  | sym (c : Char)
deriving DecidableEq

/-! ### Characters to tokens -/

def isSpace (c : Char) : Bool := c = ' ' || c = '\t' || c = '\n' || c = '\r'

def isLetter (c : Char) : Bool := c.isAlpha || c = '_' || 128 ≤ c.toNat

def keywords : List (List Char) :=
  ["node".toList, "edge".toList, "graph".toList, "digraph".toList, "subgraph".toList,
    "strict".toList]

def word (w : List Char) : Token :=
  if keywords.contains (w.map Char.toLower) then .keyword w else .id w

/-- The token that has begun. -/
inductive Cur
  | idle
  | name (w : List Char)
  | int (w : List Char)
  /-- A numeral with its dot. -/
  | frac (w : List Char)
  | point
  | minus
  | text (s : List Char)
  | escape (s : List Char)

def start (c : Char) : Cur × List Token :=
  if isSpace c then (.idle, [])
  else if isLetter c then (.name [c], [])
  else if c.isDigit then (.int [c], [])
  else if c = '.' then (.point, [])
  else if c = '-' then (.minus, [])
  else if c = '"' then (.text [], [])
  else (.idle, [.sym c])

/-- The token that ends. -/
def flush : Cur → List Token
  | .idle => []
  | .name w => [word w]
  | .int w | .frac w => [.id w]
  | .point => [.sym '.']
  | .minus => [.sym '-']
  | .text _ | .escape _ => [.sym '"']

/-- The token that goes on, if it does. -/
def extend : Cur → Char → Option Cur
  | .name w, c => if isLetter c || c.isDigit then some (.name (w ++ [c])) else none
  | .int w, c =>
    if c.isDigit then some (.int (w ++ [c]))
    else if c = '.' then some (.frac (w ++ [c]))
    else none
  | .frac w, c => if c.isDigit then some (.frac (w ++ [c])) else none
  | .point, c => if c.isDigit then some (.frac ['.', c]) else none
  | .text s, c => some (if c = '\\' then .escape s else .text (s ++ [c]))
  | .escape s, c => some (.text (if c = '"' then s ++ [c] else s ++ ['\\', c]))
  | .idle, _ | .minus, _ => none

def step : Cur → Char → Cur × List Token
  | .minus, '>' => (.idle, [.arrow])
  | .text s, '"' => (.idle, [.quoted s])
  | cur, c =>
    match extend cur c with
    | some cur => (cur, [])
    | none => ((start c).1, flush cur ++ (start c).2)

def lex : Cur → List Char → List Token
  | cur, [] => flush cur
  | cur, c :: cs => (step cur c).2 ++ lex (step cur c).1 cs

/-- The word is one identifier. -/
def IsId (w : List Char) : Prop := lex .idle w = [.id w]

instance (w : List Char) : Decidable (IsId w) := inferInstanceAs (Decidable (_ = _))

/-! ### Tokens to statements -/

abbrev Attr := List Char × List Char

inductive Stmt
  | edge (a b : List Char)
  | node (a : List Char) (attrs : List Attr)
deriving DecidableEq

def value : Token → Option (List Char)
  | .id w => some w
  | .quoted s => some s
  | _ => none

/-- The statements up to the last bracket, the first argument being the node whose attributes are
read. -/
def stmts : Option (List Char × List Attr) → List Token → Option (List Stmt)
  | none, [.sym '\x7d'] => some []
  | none, .id a :: .arrow :: .id b :: ts => (stmts none ts).map (.edge a b :: ·)
  | none, .id a :: .sym '[' :: ts => stmts (some (a, [])) ts
  | none, .id a :: ts => (stmts none ts).map (.node a [] :: ·)
  | some (a, attrs), .sym ']' :: ts => (stmts none ts).map (.node a attrs :: ·)
  | some (a, attrs), .sym ',' :: ts => stmts (some (a, attrs)) ts
  | some (a, attrs), .id k :: .sym '=' :: v :: ts =>
    (value v).bind fun v => stmts (some (a, attrs ++ [(k, v)])) ts
  | _, _ => none

/-- The statements of a directed graph. -/
def read (text : List Char) : Option (List Stmt) :=
  match lex .idle text with
  | .keyword k :: .id _ :: .sym '\x7b' :: ts => if k = "digraph".toList then stmts none ts else none
  | _ => none

/-! ### The graph -/

def Stmt.nodes : Stmt → List (List Char)
  | .edge a b => [a, b]
  | .node a _ => [a]

/-- The nodes that are there, each as often as it is mentioned. -/
def nodes (ss : List Stmt) : List (List Char) := ss.flatMap Stmt.nodes

def edges (ss : List Stmt) : List (List Char × List Char) :=
  ss.filterMap fun
    | .edge a b => some (a, b)
    | .node _ _ => none

def Stmt.labels (a : List Char) : Stmt → List (List Char)
  | .edge _ _ => []
  | .node b attrs => if b = a then (attrs.filter (·.1 = "label".toList)).map (·.2) else []

/-- What a node is labelled with. -/
def labels (a : List Char) (ss : List Stmt) : List (List Char) := ss.flatMap (Stmt.labels a)

/-! ### Blanks part the words -/

/-- No quoted text has begun. -/
def Cur.Plain : Cur → Prop
  | .text _ | .escape _ => False
  | _ => True

theorem step_idle (c : Char) : step .idle c = start c := by
  rw [step, extend] <;> simp [flush]

theorem plain_start {c : Char} (hc : c ≠ '"') : (start c).1.Plain := by
  unfold start
  split_ifs <;> trivial

theorem plain_step {cur : Cur} (h : cur.Plain) {c : Char} (hc : c ≠ '"') :
    (step cur c).1.Plain := by
  have hstart := plain_start hc
  unfold step
  split
  · trivial
  · trivial
  · split
    · rename_i cur' hextend
      cases cur <;> simp only [extend] at hextend <;> grind [Cur.Plain]
    · exact hstart

theorem step_space {cur : Cur} (h : cur.Plain) {c : Char} (hc : isSpace c) :
    step cur c = (.idle, flush cur) := by
  have hcases : c = ' ' ∨ c = '\t' ∨ c = '\n' ∨ c = '\r' := by simpa [isSpace, or_assoc] using hc
  rcases hcases with rfl | rfl | rfl | rfl <;> cases cur <;> first | rfl | exact absurd h id

theorem lex_append_space {cur : Cur} (h : cur.Plain) {w : List Char} (hw : '"' ∉ w) {c : Char}
    (hc : isSpace c) (rest : List Char) :
    lex cur (w ++ c :: rest) = lex cur w ++ lex .idle rest := by
  induction w generalizing cur with
  | nil =>
    have hlex : lex cur (c :: rest) = (step cur c).2 ++ lex (step cur c).1 rest := rfl
    rw [List.nil_append, hlex, step_space h hc]
    rfl
  | cons d w ih =>
    obtain ⟨hd, hw⟩ := not_or.mp (mt List.mem_cons.mpr hw)
    rw [List.cons_append, lex, ih (plain_step h (Ne.symm hd)) hw, lex, List.append_assoc]

/-- A word that is followed by a blank. -/
theorem lex_word {w : List Char} (hw : '"' ∉ w) {c : Char} (hc : isSpace c) (rest : List Char) :
    lex .idle (w ++ c :: rest) = lex .idle w ++ lex .idle rest :=
  @lex_append_space .idle trivial w hw c hc rest

theorem lex_text {s : List Char} (hquote : '"' ∉ s) (hescape : '\\' ∉ s) (acc rest : List Char) :
    lex (.text acc) (s ++ '"' :: rest) = .quoted (acc ++ s) :: lex .idle rest := by
  induction s generalizing acc with
  | nil =>
    rw [List.append_nil]
    rfl
  | cons c s ih =>
    obtain ⟨hc, hquote⟩ := not_or.mp (mt List.mem_cons.mpr hquote)
    obtain ⟨hc', hescape⟩ := not_or.mp (mt List.mem_cons.mpr hescape)
    have hstep : step (.text acc) c = (.text (acc ++ [c]), []) := by
      rw [step, extend, if_neg (Ne.symm hc')]
      · nofun
      · exact fun _ _ => Ne.symm hc
    rw [List.cons_append, lex, hstep, List.nil_append, ih hquote hescape, List.append_assoc]
    rfl

/-- A quoted text. -/
theorem lex_quoted {s : List Char} (hquote : '"' ∉ s) (hescape : '\\' ∉ s) (rest : List Char) :
    lex .idle ('"' :: s ++ '"' :: rest) = .quoted s :: lex .idle rest :=
  lex_text hquote hescape [] rest

/-! ### The identifiers that are read -/

def isWordChar (c : Char) : Bool := isLetter c || c.isDigit || c = '.'

/-- The characters of the token that has begun. -/
def Cur.chars : Cur → List Char
  | .idle | .text _ | .escape _ => []
  | .name w | .int w | .frac w => w
  | .point => ['.']
  | .minus => ['-']

/-- The token that has begun would be read so where it stands alone. -/
structure Cur.Alone (cur : Cur) : Prop where
  lex : ∀ cs, lex .idle (cur.chars ++ cs) = Dot.lex cur cs
  chars : cur = .minus ∨ ∀ c ∈ cur.chars, isWordChar c

theorem alone_idle : Cur.idle.Alone := ⟨fun _ => rfl, .inr nofun⟩

theorem start_cases (c : Char) : (start c).1 = .idle ∨ (start c).1 = .text [] ∨
    (start c).2 = [] ∧ (start c).1.chars = [c] ∧ ((start c).1 = .minus ∨ isWordChar c) := by
  unfold start isWordChar
  split_ifs <;> simp_all [Cur.chars]

theorem not_id_mem_start (w : List Char) (c : Char) : .id w ∉ (start c).2 := by
  unfold start
  split_ifs <;> simp

theorem alone_start {c : Char} (h : (start c).1.Plain) : (start c).1.Alone := by
  rcases start_cases c with hidle | htext | ⟨hnone, hchars, hword⟩
  · rw [hidle]
    exact alone_idle
  · rw [htext] at h
    exact h.elim
  · refine ⟨fun cs => ?_, hword.imp_right fun hc => ?_⟩
    · rw [hchars, List.singleton_append, lex, step_idle, hnone, List.nil_append]
    · rw [hchars]
      exact List.forall_mem_singleton.mpr hc

theorem extend_spec {cur cur' : Cur} {c : Char} (hcur : cur.Plain) (h : extend cur c = some cur') :
    cur'.chars = cur.chars ++ [c] ∧ isWordChar c ∧ cur ≠ .minus ∧ step cur c = (cur', []) := by
  have hstep : cur ≠ .minus → step cur c = (cur', []) := by
    intro hne
    unfold step
    split
    · exact absurd rfl hne
    · exact hcur.elim
    · rw [h]
  have hne : cur ≠ .minus := by
    rintro rfl
    cases h
  refine ⟨?_, ?_, hne, hstep hne⟩
  · cases cur <;> simp only [extend] at h <;> grind [Cur.chars, Cur.Plain]
  · cases cur <;> simp only [extend] at h <;> grind [isWordChar, Cur.Plain]

theorem step_of_not_plain {cur : Cur} (h : ¬ cur.Plain) {c : Char} (hstep : (step cur c).1.Plain) :
    (step cur c).1 = .idle := by
  revert hstep
  unfold step
  split
  · exact fun _ => rfl
  · exact fun _ => rfl
  · cases cur with
    | text s =>
      dsimp only [extend]
      split_ifs <;> exact False.elim
    | escape s => exact False.elim
    | _ => exact absurd trivial h

theorem alone_step {cur : Cur} (h : cur.Plain → cur.Alone) (c : Char)
    (hstep : (step cur c).1.Plain) : (step cur c).1.Alone := by
  by_cases hcur : cur.Plain
  · cases hextend : extend cur c with
    | none =>
      revert hstep
      unfold step
      split
      · exact fun _ => alone_idle
      · exact fun _ => alone_idle
      · rw [hextend]
        exact alone_start
    | some cur' =>
      obtain ⟨hchars, hc, hne, heq⟩ := extend_spec hcur hextend
      rw [heq]
      refine ⟨fun cs => ?_, .inr ?_⟩
      · rw [hchars, List.append_assoc, (h hcur).lex, List.singleton_append, lex, heq]
        rfl
      · rw [hchars]
        intro d hd
        rcases List.mem_append.mp hd with hd | hd
        · exact (h hcur).chars.resolve_left hne d hd
        · exact List.mem_singleton.mp hd ▸ hc
  · rw [step_of_not_plain hcur hstep]
    exact alone_idle

theorem isId_of_mem_flush {cur : Cur} (h : cur.Plain → cur.Alone) {w : List Char}
    (hw : .id w ∈ flush cur) : IsId w ∧ ∀ c ∈ w, isWordChar c := by
  obtain ⟨hplain, hchars, hflush, hne⟩ : cur.Plain ∧ cur.chars = w ∧ flush cur = [.id w] ∧
      cur ≠ .minus := by
    cases cur with
    | name u =>
      have hword := List.mem_singleton.mp hw
      have heq : u = w := by
        unfold word at hword
        split at hword
        · cases hword
        · cases hword
          rfl
      exact ⟨trivial, heq, congrArg (fun t => [t]) hword.symm, nofun⟩
    | int u | frac u =>
      cases List.mem_singleton.mp hw
      exact ⟨trivial, rfl, rfl, nofun⟩
    | _ => simp [flush] at hw
  have halone := h hplain
  rw [← hchars]
  refine ⟨?_, halone.chars.resolve_left hne⟩
  have hlex := halone.lex []
  rw [List.append_nil] at hlex
  rw [IsId, hlex, hchars]
  exact hflush

theorem isId_of_mem_step {cur : Cur} (h : cur.Plain → cur.Alone) {w : List Char} {c : Char}
    (hw : .id w ∈ (step cur c).2) : IsId w ∧ ∀ c ∈ w, isWordChar c := by
  unfold step at hw
  split at hw
  · simp at hw
  · simp at hw
  · split at hw
    · cases hw
    · exact isId_of_mem_flush h ((List.mem_append.mp hw).resolve_right (not_id_mem_start w c))

theorem isId_of_mem_lex {cur : Cur} (h : cur.Plain → cur.Alone) {w cs : List Char}
    (hw : .id w ∈ lex cur cs) : IsId w ∧ ∀ c ∈ w, isWordChar c := by
  induction cs generalizing cur with
  | nil => exact isId_of_mem_flush h hw
  | cons c cs ih =>
    rcases List.mem_append.mp hw with hw | hw
    · exact isId_of_mem_step h hw
    · exact ih (alone_step h c) hw

/-- What is read as an identifier in a text is one when it stands alone. -/
theorem isId_of_mem {w text : List Char} (hw : .id w ∈ lex .idle text) : IsId w :=
  (isId_of_mem_lex (fun _ => alone_idle) hw).1

example : lex .idle "12ab".toList = [.id "12".toList, .id "ab".toList] := by decide

theorem IsId.isWordChar {w : List Char} (h : IsId w) : ∀ c ∈ w, isWordChar c := by
  have hmem : .id w ∈ lex .idle w := by
    rw [h]
    exact List.mem_singleton_self _
  exact (isId_of_mem_lex (fun _ => alone_idle) hmem).2

theorem IsId.not_mem {w : List Char} (h : IsId w) {c : Char} (hc : Dot.isWordChar c = false) :
    c ∉ w := fun hmem => Bool.false_ne_true (hc.symm.trans (h.isWordChar c hmem))

@[simp] theorem nodes_cons (s : Stmt) (ss : List Stmt) : nodes (s :: ss) = s.nodes ++ nodes ss :=
  List.flatMap_cons ..

/-- The nodes of the statements are named by identifiers among the tokens. -/
theorem id_mem_of_stmts {node : Option (List Char × List Attr)} {ts : List Token} {ss : List Stmt}
    (h : stmts node ts = some ss) {w : List Char} (hw : w ∈ nodes ss) :
    .id w ∈ ts ∨ node.map Prod.fst = some w := by
  fun_induction stmts node ts generalizing ss with
  | case1 =>
    cases h
    cases hw
  | case2 a b ts ih =>
    obtain ⟨ss, hss, rfl⟩ := Option.map_eq_some_iff.mp h
    rw [nodes_cons, List.mem_append] at hw
    rcases hw with hw | hw
    · simp only [Stmt.nodes, List.mem_cons, List.not_mem_nil, or_false] at hw
      rcases hw with rfl | rfl <;> simp
    · exact .inl (by simpa using .inr (.inr ((ih hss hw).resolve_right nofun)))
  | case3 a ts ih =>
    have hmem := ih h hw
    simp only [Option.map_some, Option.some_inj] at hmem
    rcases hmem with hmem | rfl <;> simp [*]
  | case4 a ts _ _ ih =>
    obtain ⟨ss, hss, rfl⟩ := Option.map_eq_some_iff.mp h
    rw [nodes_cons, List.mem_append] at hw
    rcases hw with hw | hw
    · simp [List.mem_singleton.mp hw]
    · exact .inl (List.mem_cons_of_mem _ ((ih hss hw).resolve_right nofun))
  | case5 a attrs ts ih =>
    obtain ⟨ss, hss, rfl⟩ := Option.map_eq_some_iff.mp h
    rw [nodes_cons, List.mem_append] at hw
    rcases hw with hw | hw
    · exact .inr (congrArg some (List.mem_singleton.mp hw).symm)
    · exact .inl (List.mem_cons_of_mem _ ((ih hss hw).resolve_right nofun))
  | case6 a attrs ts ih => exact (ih h hw).imp_left (List.mem_cons_of_mem _)
  | case7 a attrs k v ts ih =>
    obtain ⟨v', -, hss⟩ := Option.bind_eq_some_iff.mp h
    refine (ih v' hss hw).imp_left fun hmem => ?_
    exact List.mem_cons_of_mem _ (List.mem_cons_of_mem _ (List.mem_cons_of_mem _ hmem))
  | case8 => cases h

/-- The nodes of a graph that is read are named by identifiers. -/
theorem isId_of_read {text : List Char} {ss : List Stmt} (h : read text = some ss) {w : List Char}
    (hw : w ∈ nodes ss) : IsId w := by
  unfold read at h
  split at h
  · rename_i k g ts hlex
    split at h
    · have hts := (id_mem_of_stmts h hw).resolve_right nofun
      have hmem : .id w ∈ lex .idle text := by
        rw [hlex]
        exact List.mem_cons_of_mem _ (List.mem_cons_of_mem _ (List.mem_cons_of_mem _ hts))
      exact isId_of_mem hmem
    · cases h
  · cases h

/-! ### Texts that are read -/

theorem IsId.lex {w : List Char} (h : IsId w) {c : Char} (hc : isSpace c) (rest : List Char) :
    Dot.lex .idle (w ++ c :: rest) = .id w :: Dot.lex .idle rest := by
  rw [lex_word (h.not_mem (by decide)) hc, h, List.singleton_append]

/-- The text stands for the statements, whatever follows. -/
def Reads (text : List Char) (ss : List Stmt) : Prop :=
  ∀ rest, stmts none (lex .idle (text ++ rest)) = (stmts none (lex .idle rest)).map (ss ++ ·)

theorem Reads.nil : Reads [] [] := fun _ => Option.map_id'.symm

theorem Reads.append {text text' : List Char} {ss ss' : List Stmt} (h : Reads text ss)
    (h' : Reads text' ss') : Reads (text ++ text') (ss ++ ss') := fun rest => by
  rw [List.append_assoc, h, h', Option.map_map]
  exact congrArg (Option.map · _) (funext fun ss'' => (List.append_assoc ss ss' ss'').symm)

theorem Reads.flatMap {α : Type*} {l : List α} {f : α → List Char} {g : α → List Stmt}
    (h : ∀ x ∈ l, Reads (f x) (g x)) : Reads (l.flatMap f) (l.flatMap g) := by
  induction l with
  | nil => exact .nil
  | cons x l ih =>
    obtain ⟨hx, hl⟩ := List.forall_mem_cons.mp h
    rw [List.flatMap_cons, List.flatMap_cons]
    exact hx.append (ih hl)

theorem Reads.read {text : List Char} {ss : List Stmt} (h : Reads text ss) {name : List Char}
    (hname : IsId name) :
    read ("digraph ".toList ++ (name ++ " \x7b\n".toList) ++ text ++ "\x7d\n".toList) = some ss := by
  have hlex : lex .idle ("digraph ".toList ++ (name ++ " \x7b\n".toList) ++ text ++ "\x7d\n".toList) =
      .keyword "digraph".toList :: .id name :: .sym '\x7b' ::
        lex .idle (text ++ "\x7d\n".toList) := by
    have htext : "digraph ".toList ++ (name ++ " \x7b\n".toList) ++ text ++ "\x7d\n".toList =
        "digraph".toList ++ ' ' :: (name ++ ' ' :: (['\x7b'] ++ '\n' ::
          (text ++ "\x7d\n".toList))) := by simp
    rw [htext, lex_word (by decide) rfl, hname.lex rfl, lex_word (by decide) rfl]
    rfl
  have hlast : lex .idle "\x7d\n".toList = [.sym '\x7d'] := rfl
  rw [Dot.read, hlex]
  show stmts none (lex .idle (text ++ "\x7d\n".toList)) = some ss
  rw [h, hlast, stmts, Option.map_some, List.append_nil]

end Dot
