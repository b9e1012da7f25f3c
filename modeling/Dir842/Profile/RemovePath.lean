import Dir842.Lib.JsonPath

/-!
# `Fixer.remove_path`

`fixer.lua` walks down a configuration along a dotted path, stacking what it passes, and walks
back up unsetting keys for as long as objects run empty. A node of the configuration is a reference
to the library, here the path that leads to it.

The library `dlink.jansson` is not part of the tree. What the model has of it is a tree of values
with unique keys, where a string names nothing in a node that is not an object: there `get` gives
`nil` and `set` does nothing, or either of them raises.
-/

namespace Dir842.RemovePath
open Json

/-- What the library does with nodes that are not objects. -/
structure Jansson where
  /-- `JSON.typeof` calls a null `json.null`, or it is no JSON to it. -/
  nullIsJson : Bool
  nullSize : Nat
  getRaises : Value → Text → Bool
  setRaises : Value → Text → Bool

namespace Jansson
variable (lib : Jansson)

/-- `JSON.typeof(node):match('json.')`; `none` is `nil`. -/
def isJson : Option Value → Bool
  | some (.obj _) | some (.arr _) => true
  | some .null => lib.nullIsJson
  | _ => false

/-- `node:get(key)`, unless it raises. -/
def get : Value → Text → Option (Option Value)
  | .obj m, key => some (m.lookup key)
  | v, key => if lib.getRaises v key then none else some none

/-- `node:set(key, nil)`, unless it raises. -/
def unset : Value → Text → Option Value
  | .obj m, key => some (.obj (Value.eraseMember key m))
  | v, key => if lib.setRaises v key then none else some v

def size : Value → Nat
  | .obj m => m.length
  | .arr a => a.length
  | .null => lib.nullSize
  | _ => 0

end Jansson

/-- `path:gmatch("[^.]+")`. -/
def tokens (path : Text) : List Text := (path.splitOn '.').filter (· ≠ [])

structure KV where
  key : Text
  parent : List Text

/-- The first loop: `subnodes`, the deepest first. -/
def descend (lib : Jansson) (config : Value) :
    List KV → List Text → List Text → Option (List KV)
  | subnodes, _, [] => some subnodes
  | subnodes, node, token :: tokens =>
    match (config.at? node).bind (lib.get · token) with
    | none => none
    | some child =>
      if lib.isJson child then
        descend lib config (⟨token, node⟩ :: subnodes) (node ++ [token]) tokens
      else some (⟨token, node⟩ :: subnodes)

/-- The second loop; where `set` raises, the configuration stays as it is by then. -/
def ascend (lib : Jansson) : Value → List KV → Value
  | config, [] => config
  | config, kv :: subnodes =>
    match (config.at? kv.parent).bind (lib.unset · kv.key) with
    | none => config
    | some parent =>
      if 0 < lib.size parent then config.replaceAt kv.parent parent
      else ascend lib (config.replaceAt kv.parent parent) subnodes

/-- The configuration after `Fixer.remove_path(config, path)`. -/
def removePath (lib : Jansson) (config : Value) (path : Text) : Value :=
  (descend lib config [] [] (tokens path)).elim config (ascend lib config)

/-! ### The two loops as one recursion -/

/-- What the function comes to in a node. -/
inductive Outcome
  /-- The path ends here. -/
  | ended
  /-- The library raised an exception. -/
  | raised
  /-- The node is `v` now and not empty: the second loop stops here. -/
  | kept (v : Value)
  /-- The node is `v` now and its size is 0. -/
  | emptied (v : Value)

def unsetKey (lib : Jansson) (v : Value) (token : Text) : Outcome :=
  match lib.unset v token with
  | none => .raised
  | some v' => if 0 < lib.size v' then .kept v' else .emptied v'

def prune (lib : Jansson) : Value → List Text → Outcome
  | _, [] => .ended
  | v, token :: tokens =>
    match lib.get v token with
    | none => .raised
    | some none => unsetKey lib v token
    | some (some child) =>
      if lib.isJson (some child) then
        match prune lib child tokens with
        | .raised => .raised
        | .kept child' => .kept (v.replaceAt [token] child')
        | .ended | .emptied _ => unsetKey lib v token
      else unsetKey lib v token

/-- What the second loop makes of the outcome in a node and the entries above it. -/
def finish (lib : Jansson) (config : Value) (node : List Text) (subnodes : List KV) :
    Outcome → Value
  | .ended => ascend lib config subnodes
  | .raised => config
  | .kept v => config.replaceAt node v
  | .emptied v => ascend lib (config.replaceAt node v) subnodes

section
variable {lib : Jansson} {config v : Value} {node : List Text} {subnodes : List KV}

theorem ascend_cons (h : config.at? node = some v) (token : Text) :
    ascend lib config (⟨token, node⟩ :: subnodes) =
      finish lib config node subnodes (unsetKey lib v token) := by
  simp only [ascend, h, Option.bind_some, unsetKey]
  cases lib.unset v token with
  | none => rfl
  | some parent => dsimp only; split <;> rfl

theorem exists_obj_of_get {token : Text} {child : Value} (h : lib.get v token = some (some child)) :
    ∃ m, v = .obj m ∧ m.lookup token = some child := by
  cases v with
  | obj m => exact ⟨m, rfl, Option.some.inj h⟩
  | null | bool _ | num _ _ | str _ | arr _ =>
    simp only [Jansson.get] at h
    split at h <;> cases h

theorem unsetKey_obj (m : List (Text × Value)) (token : Text) :
    unsetKey lib (.obj m) token =
      if Value.eraseMember token m = [] then .emptied (.obj (Value.eraseMember token m))
      else .kept (.obj (Value.eraseMember token m)) := by
  simp only [unsetKey, Jansson.unset, Jansson.size, List.length_pos_iff, ite_not]

/-- What stood in the node before does not matter once a key of it is unset. -/
theorem finish_replaceAt_unsetKey {m : List (Text × Value)} (h : config.at? node = some v)
    (w : Value) (token : Text) :
    finish lib (config.replaceAt node w) node subnodes (unsetKey lib (.obj m) token) =
      finish lib config node subnodes (unsetKey lib (.obj m) token) := by
  rw [unsetKey_obj]
  split <;> simp only [finish, Value.replaceAt_replaceAt h]

theorem descend_eq_finish (tokens : List Text) (h : config.at? node = some v) :
    (descend lib config subnodes node tokens).elim config (ascend lib config) =
      finish lib config node subnodes (prune lib v tokens) := by
  induction tokens generalizing v node subnodes with
  | nil => rfl
  | cons token tokens ih =>
    simp only [descend, prune, h, Option.bind_some]
    cases hget : lib.get v token with
    | none => rfl
    | some child =>
      cases child with
      | none => exact ascend_cons h token
      | some child =>
        obtain ⟨m, rfl, hm⟩ := exists_obj_of_get hget
        dsimp only
        split
        · have hat : config.at? (node ++ [token]) = some child := by
            rw [Value.at?_append, h, Option.bind_some, Value.at?_cons, Value.member?, hm]
            exact Value.at?_nil
          have hset : ∀ w, config.replaceAt (node ++ [token]) w =
              config.replaceAt node (.obj (Value.setMember token w m)) := fun w =>
            Value.replaceAt_concat h hm
          rw [ih hat]
          cases prune lib child tokens with
          | ended => exact ascend_cons h token
          | raised => rfl
          | kept w =>
            simp only [finish, hset]
            rw [Value.replaceAt_cons hm]
            simp only [Value.replaceAt]
          | emptied w =>
            simp only [finish, hset]
            rw [ascend_cons (Value.at?_replaceAt h) token]
            have herase : unsetKey lib (.obj (Value.setMember token w m)) token =
                unsetKey lib (.obj m) token := by
              rw [unsetKey_obj, unsetKey_obj, Value.eraseMember_setMember]
            rw [herase, finish_replaceAt_unsetKey h]
            rfl
        · exact ascend_cons h token

/-- The configuration is what the recursion makes of its root. -/
theorem removePath_eq (path : Text) :
    removePath lib config path = finish lib config [] [] (prune lib config (tokens path)) :=
  descend_eq_finish (tokens path) Value.at?_nil

end

/-! ### What removing a path means -/

/-- The objects from `v` down to its value at the path hold one key each. -/
def OnlyWay : Value → List Text → Prop
  | _, [] => True
  | v, t :: p => (∀ s ≠ t, v.member? s = none) ∧ ∃ w, v.member? t = some w ∧ OnlyWay w p

/-- What stands at `q` goes with the value at `p`: it is this value, or an object that is empty
without it. -/
def GoesWith (config : Value) (p q : List Text) : Prop :=
  q ≠ [] ∧ ∃ rest, p = q ++ rest ∧ ∃ v, config.at? q = some v ∧ OnlyWay v rest

/-- `result` is `config` without the value at `p` and the objects that are empty without it. -/
structure Removes (config : Value) (p : List Text) (result : Value) : Prop where
  gone : ∀ q, GoesWith config p q → result.at? q = none
  ancestor : ∀ q, q <+: p → q ≠ p → ¬ GoesWith config p q → ∃ m, result.at? q = some (.obj m)
  kept : ∀ q, ¬ q <+: p → ¬ p <+: q → result.at? q = config.at? q

/-- A path that does not exist changes nothing; one that exists is removed. -/
structure RemovesExactly (config : Value) (p : List Text) (result : Value) : Prop where
  missing : p = [] ∨ config.at? p = none → result = config
  removes : p ≠ [] → config.at? p ≠ none → Removes config p result

/-- Where the path breaks off in `v`, at `q`, the function comes to a halt without a change. -/
def Halts (lib : Jansson) (q : List Text) (v : Value) (token : Text) : Prop :=
  q = [] ∨ lib.isJson (some v) = true ∧
    (lib.get v token = none ∨ lib.unset v token = none ∨ 0 < lib.size v)

/-- The path exists, or it breaks off where the function halts. -/
def Removable (lib : Jansson) (config : Value) (p : List Text) : Prop :=
  p = [] ∨ config.at? p ≠ none ∨ ∀ q v token, q ++ [token] <+: p → config.at? q = some v →
    v.member? token = none → Halts lib q v token

section
variable {lib : Jansson} {v w : Value} {t : Text} {p q : List Text}

theorem prune_cons_obj {m : List (Text × Value)} {child : Value} (hm : m.lookup t = some child)
    (hj : lib.isJson (some child) = true) :
    prune lib (.obj m) (t :: p) =
      match prune lib child p with
      | .raised => .raised
      | .kept child' => .kept (.obj (Value.setMember t child' m))
      | .ended | .emptied _ => unsetKey lib (.obj m) t := by
  simp only [prune, Jansson.get, hm, hj, if_true]
  cases prune lib child p with
  | kept w => dsimp only; rw [Value.replaceAt_cons hm]; simp only [Value.replaceAt]
  | ended | raised | emptied _ => rfl

theorem OnlyWay.exists_at (h : OnlyWay v (p ++ q)) : ∃ w, v.at? p = some w ∧ OnlyWay w q := by
  induction p generalizing v with
  | nil => exact ⟨v, Value.at?_nil, h⟩
  | cons t p ih =>
    obtain ⟨-, u, hu, h⟩ := h
    obtain ⟨w, hw, hq⟩ := ih h
    exact ⟨w, by rw [Value.at?_cons, hu, Option.bind_some, hw], hq⟩

/-- Nothing stands beside such a way. -/
theorem OnlyWay.at?_eq_none (h : OnlyWay v p) (h₁ : ¬ q <+: p) (h₂ : ¬ p <+: q) :
    v.at? q = none := by
  induction p generalizing v q with
  | nil => exact absurd (List.nil_prefix) h₂
  | cons t p ih =>
    obtain ⟨hother, u, hu, h⟩ := h
    cases q with
    | nil => exact absurd (List.nil_prefix) h₁
    | cons s q =>
      rw [Value.at?_cons]
      by_cases hs : s = t
      · subst hs
        rw [hu, Option.bind_some]
        exact ih h (fun hp => h₁ (List.cons_prefix_cons.mpr ⟨rfl, hp⟩))
          (fun hp => h₂ (List.cons_prefix_cons.mpr ⟨rfl, hp⟩))
      · rw [hother s hs, Option.bind_none]

theorem GoesWith.exists_cons {config : Value} (h : GoesWith config (t :: p) q) :
    ∃ q', q = t :: q' := by
  obtain ⟨hne, rest, heq, -⟩ := h
  obtain ⟨s, q', rfl⟩ := List.exists_cons_of_ne_nil hne
  exact ⟨q', by rw [(List.cons.inj heq).1]⟩

theorem goesWith_cons {m : List (Text × Value)} (hm : m.lookup t = some w) :
    GoesWith (.obj m) (t :: p) (t :: q) ↔ q = [] ∧ OnlyWay w p ∨ GoesWith w p q := by
  have hat : (Value.obj m).at? (t :: q) = w.at? q := by
    rw [Value.at?_cons, Value.member?, hm, Option.bind_some]
  unfold GoesWith
  simp only [hat, ne_eq, reduceCtorEq, not_false_eq_true, true_and, List.cons_append,
    List.cons.injEq]
  by_cases hq : q = []
  · subst hq
    simp
  · simp [hq]

theorem at?_eraseMember {m : List (Text × Value)} {s : Text} :
    (Value.obj (Value.eraseMember t m)).at? (s :: q) =
      if s = t then none else (Value.obj m).at? (s :: q) := by
  rw [Value.at?_cons, Value.at?_cons, Value.member?, Value.member?]
  split
  · rename_i hs; rw [hs, Value.lookup_eraseMember_self, Option.bind_none]
  · rename_i hs; rw [Value.lookup_eraseMember_of_ne hs]

theorem at?_setMember {m : List (Text × Value)} {s : Text} {w' : Value}
    (hm : m.lookup t = some w) :
    (Value.obj (Value.setMember t w' m)).at? (s :: q) =
      if s = t then w'.at? q else (Value.obj m).at? (s :: q) := by
  rw [Value.at?_cons, Value.at?_cons, Value.member?, Value.member?]
  split
  · rename_i hs
    rw [hs, Value.lookup_setMember_self (by rw [hm]; exact Option.some_ne_none w), Option.bind_some]
  · rename_i hs; rw [Value.lookup_setMember_of_ne hs]

/-- Everything below the key goes: the key is unset. -/
theorem removes_eraseMember {m : List (Text × Value)} (hm : m.lookup t = some w)
    (ho : OnlyWay w p) : Removes (.obj m) (t :: p) (.obj (Value.eraseMember t m)) := by
  have hgone : ∀ q, (Value.obj (Value.eraseMember t m)).at? (t :: q) = none := fun q => by
    rw [at?_eraseMember, if_pos rfl]
  have hat : ∀ q, (Value.obj m).at? (t :: q) = w.at? q := fun q => by
    rw [Value.at?_cons, Value.member?, hm, Option.bind_some]
  refine ⟨fun q hq => ?_, fun q hpre hne hgo => ?_, fun q h₁ h₂ => ?_⟩
  · obtain ⟨q, rfl⟩ := hq.exists_cons
    exact hgone q
  · cases q with
    | nil => exact ⟨_, Value.at?_nil⟩
    | cons s q =>
      obtain ⟨rfl, rest, hrest⟩ := List.cons_prefix_cons.mp hpre
      refine absurd ?_ hgo
      rw [← hrest] at ho
      obtain ⟨u, hu, hway⟩ := ho.exists_at
      exact ⟨List.cons_ne_nil _ _, rest, by rw [← hrest, List.cons_append], u, by rw [hat, hu],
        hway⟩
  · cases q with
    | nil => exact absurd List.nil_prefix h₁
    | cons s q =>
      by_cases hs : s = t
      · subst hs
        rw [hgone, hat]
        exact (ho.at?_eq_none (fun hp => h₁ (List.cons_prefix_cons.mpr ⟨rfl, hp⟩))
          (fun hp => h₂ (List.cons_prefix_cons.mpr ⟨rfl, hp⟩))).symm
      · rw [at?_eraseMember, if_neg hs]

/-- Something below the key stays: the path is removed from the value of the key. -/
theorem removes_setMember {m : List (Text × Value)} {w' : Value} (hm : m.lookup t = some w)
    (ho : ¬ OnlyWay w p) (h : Removes w p w') :
    Removes (.obj m) (t :: p) (.obj (Value.setMember t w' m)) := by
  have hp : p ≠ [] := by rintro rfl; exact ho trivial
  have hat : ∀ q, (Value.obj m).at? (t :: q) = w.at? q := fun q => by
    rw [Value.at?_cons, Value.member?, hm, Option.bind_some]
  refine ⟨fun q hq => ?_, fun q hpre hne hgo => ?_, fun q h₁ h₂ => ?_⟩
  · obtain ⟨q, rfl⟩ := hq.exists_cons
    rw [at?_setMember hm, if_pos rfl]
    rcases (goesWith_cons hm).mp hq with ⟨-, hway⟩ | hq
    · exact absurd hway ho
    · exact h.gone q hq
  · cases q with
    | nil => exact ⟨_, Value.at?_nil⟩
    | cons s q =>
      obtain ⟨rfl, hpq⟩ := List.cons_prefix_cons.mp hpre
      rw [at?_setMember hm, if_pos rfl]
      refine h.ancestor q hpq ?_ fun hq => hgo ((goesWith_cons hm).mpr (.inr hq))
      rintro rfl
      exact hne rfl
  · cases q with
    | nil => exact absurd List.nil_prefix h₁
    | cons s q =>
      rw [at?_setMember hm]
      split
      · rename_i hs
        subst hs
        rw [hat]
        exact h.kept q (fun hp => h₁ (List.cons_prefix_cons.mpr ⟨rfl, hp⟩))
          (fun hp => h₂ (List.cons_prefix_cons.mpr ⟨rfl, hp⟩))
      · rfl

theorem unsetKey_of_onlyWay {m : List (Text × Value)} (hm : m.lookup t = some w)
    (ho : OnlyWay w p) :
    (∃ v', unsetKey lib (.obj m) t = .kept v' ∧ ¬ OnlyWay (.obj m) (t :: p) ∧
        Removes (.obj m) (t :: p) v') ∨
      (∃ v', unsetKey lib (.obj m) t = .emptied v' ∧ OnlyWay (.obj m) (t :: p) ∧
        Removes (.obj m) (t :: p) v') := by
  have hr := removes_eraseMember hm ho
  rw [unsetKey_obj]
  split
  · rename_i hnil
    exact .inr ⟨_, rfl, ⟨Value.eraseMember_eq_nil_iff.mp hnil, w, hm, ho⟩, hr⟩
  · rename_i hnil
    exact .inl ⟨_, rfl, fun hway => hnil (Value.eraseMember_eq_nil_iff.mpr hway.1), hr⟩

variable (lib) in
/-- What the recursion comes to on a path that exists. -/
theorem prune_of_exists (hp : p ≠ []) (hv : v.at? p ≠ none) :
    (∃ v', prune lib v p = .kept v' ∧ ¬ OnlyWay v p ∧ Removes v p v') ∨
      (∃ v', prune lib v p = .emptied v' ∧ OnlyWay v p ∧ Removes v p v') := by
  induction p generalizing v with
  | nil => exact absurd rfl hp
  | cons t p ih =>
    rw [Value.at?_cons, ne_eq, Option.bind_eq_none_iff] at hv
    push Not at hv
    obtain ⟨w, hw, hat⟩ := hv
    obtain ⟨m, rfl, hm⟩ := Value.exists_obj_of_member? hw
    by_cases hnil : p = []
    · subst hnil
      have hprune : prune lib (.obj m) [t] = unsetKey lib (.obj m) t := by
        simp only [prune, Jansson.get, hm, ite_self]
      rw [hprune]
      exact unsetKey_of_onlyWay hm trivial
    · have hj : lib.isJson (some w) = true := by
        obtain ⟨s, p, rfl⟩ := List.exists_cons_of_ne_nil hnil
        rw [Value.at?_cons, ne_eq, Option.bind_eq_none_iff] at hat
        push Not at hat
        obtain ⟨u, hu, -⟩ := hat
        obtain ⟨m', rfl, -⟩ := Value.exists_obj_of_member? hu
        rfl
      rw [prune_cons_obj hm hj]
      rcases ih hnil hat with ⟨w', hprune, ho, hr⟩ | ⟨w', hprune, ho, hr⟩
      · rw [hprune]
        exact .inl ⟨_, rfl, fun hway => ho (by
          obtain ⟨-, u, hu, hway⟩ := hway
          rwa [Option.some.inj (hu.symm.trans hm)] at hway), removes_setMember hm ho hr⟩
      · rw [hprune]
        exact unsetKey_of_onlyWay hm ho

/-! A path that does not exist breaks off at some node: `q` leads to it, and `t` is not in it. -/

theorem exists_break (hv : v.at? p = none) :
    ∃ q t, q ++ [t] <+: p ∧ ∃ w, v.at? q = some w ∧ w.member? t = none := by
  induction p generalizing v with
  | nil => rw [Value.at?_nil] at hv; cases hv
  | cons t p ih =>
    cases hw : v.member? t with
    | none => exact ⟨[], t, ⟨p, rfl⟩, v, Value.at?_nil, hw⟩
    | some w =>
      rw [Value.at?_cons, hw, Option.bind_some] at hv
      obtain ⟨q, s, hpre, u, hu, hs⟩ := ih hv
      exact ⟨t :: q, s, List.cons_prefix_cons.mpr ⟨rfl, hpre⟩, u,
        by rw [Value.at?_cons, hw, Option.bind_some, hu], hs⟩

variable (lib) in
theorem get_eq_of_member?_eq_none (h : v.member? t = none) :
    lib.get v t = none ∨ lib.get v t = some none := by
  cases v with
  | obj m => exact .inr (congrArg some h)
  | null | bool _ | num _ _ | str _ | arr _ =>
    simp only [Jansson.get]
    split
    · exact .inl rfl
    · exact .inr rfl

variable (lib) in
theorem unset_eq_of_member?_eq_none (h : v.member? t = none) :
    lib.unset v t = none ∨ lib.unset v t = some v := by
  cases v with
  | obj m =>
    refine .inr ?_
    rw [Jansson.unset, Value.eraseMember_of_lookup h]
  | null | bool _ | num _ _ | str _ | arr _ =>
    simp only [Jansson.unset]
    split
    · exact .inl rfl
    · exact .inr rfl

variable (lib) in
/-- In the node where the path breaks off. -/
theorem prune_break (h : v.member? t = none) :
    (prune lib v (t :: p) = .raised ∧ (lib.get v t = none ∨ lib.unset v t = none)) ∨
      (prune lib v (t :: p) = .kept v ∧ 0 < lib.size v) ∨
        (prune lib v (t :: p) = .emptied v ∧
          ¬ (lib.get v t = none ∨ lib.unset v t = none ∨ 0 < lib.size v)) := by
  rcases get_eq_of_member?_eq_none lib h with hg | hg
  · refine .inl ⟨?_, .inl hg⟩
    simp only [prune, hg]
  rcases unset_eq_of_member?_eq_none lib h with hu | hu
  · refine .inl ⟨?_, .inr hu⟩
    simp only [prune, hg, unsetKey, hu]
  · refine .inr ?_
    simp only [prune, hg, unsetKey, hu]
    by_cases hs : 0 < lib.size v
    · exact .inl ⟨if_pos hs, hs⟩
    · exact .inr ⟨if_neg hs, by rintro (h | h | h) <;> first | cases h | exact hs h⟩

variable (lib) in
/-- A node above another one is an object. -/
theorem isJson_of_at? (hq : q ≠ []) (h : v.at? q = some w) : lib.isJson (some v) = true := by
  obtain ⟨t, q, rfl⟩ := List.exists_cons_of_ne_nil hq
  obtain ⟨m, c, rfl, -⟩ := Value.exists_obj_of_at?_cons h
  rfl

/-- Where the function halts below the root, the nodes above are as they were. -/
theorem prune_of_halts (hw : v.at? q = some w) (ht : w.member? t = none)
    (hj : lib.isJson (some w) = true)
    (hh : lib.get w t = none ∨ lib.unset w t = none ∨ 0 < lib.size w) :
    prune lib v (q ++ t :: p) = .raised ∨ prune lib v (q ++ t :: p) = .kept v := by
  induction q generalizing v with
  | nil =>
    rw [Value.at?_nil, Option.some.injEq] at hw
    subst hw
    rcases prune_break lib (p := p) ht with ⟨h, -⟩ | ⟨h, -⟩ | ⟨-, h⟩
    · exact .inl h
    · exact .inr h
    · exact absurd hh h
  | cons s q ih =>
    obtain ⟨m, c, rfl, hm, hc⟩ := Value.exists_obj_of_at?_cons hw
    have hcj : lib.isJson (some c) = true := by
      by_cases hq : q = []
      · subst hq
        rw [Value.at?_nil, Option.some.injEq] at hc
        rwa [hc]
      · exact isJson_of_at? lib hq hc
    rw [List.cons_append, prune_cons_obj hm hcj]
    rcases ih hc with h | h
    · rw [h]; exact .inl rfl
    · rw [h]; exact .inr (congrArg (Outcome.kept <| .obj ·) (Value.setMember_eq_self hm))

/-- Where it does not, the node that the path breaks off at is removed. -/
theorem prune_of_not_halts (hq : q ≠ []) (hw : v.at? q = some w) (ht : w.member? t = none)
    (hh : lib.isJson (some w) = true →
      ¬ (lib.get w t = none ∨ lib.unset w t = none ∨ 0 < lib.size w)) :
    prune lib v (q ++ t :: p) = prune lib v q := by
  induction q generalizing v with
  | nil => exact absurd rfl hq
  | cons s q ih =>
    obtain ⟨m, c, rfl, hm, hc⟩ := Value.exists_obj_of_at?_cons hw
    by_cases hq : q = []
    · subst hq
      rw [Value.at?_nil, Option.some.injEq] at hc
      subst hc
      have hone : prune lib (.obj m) [s] = unsetKey lib (.obj m) s := by
        simp only [prune, Jansson.get, hm, ite_self]
      rw [hone]
      by_cases hj : lib.isJson (some c) = true
      · rw [List.cons_append, prune_cons_obj hm hj, List.nil_append]
        rcases prune_break lib (p := p) ht with ⟨-, h | h⟩ | ⟨-, h⟩ | ⟨h, -⟩
        · exact absurd (.inl h) (hh hj)
        · exact absurd (.inr (.inl h)) (hh hj)
        · exact absurd (.inr (.inr h)) (hh hj)
        · rw [h]
      · simp only [List.cons_append, prune, Jansson.get, hm, hj, Bool.false_eq_true, if_false]
    · have hcj := isJson_of_at? lib hq hc
      rw [List.cons_append, prune_cons_obj hm hcj, prune_cons_obj hm hcj, ih hq hc]

variable (lib) in
theorem finish_of_exists {config : Value} (hp : p ≠ []) (hat : config.at? p ≠ none) :
    Removes config p (finish lib config [] [] (prune lib config p)) := by
  rcases prune_of_exists lib hp hat with ⟨v, hv, -, hr⟩ | ⟨v, hv, -, hr⟩ <;>
    rw [hv] <;> exact hr

theorem finish_of_halts {config : Value} (hw : config.at? q = some w) (ht : w.member? t = none)
    (hh : Halts lib q w t) :
    finish lib config [] [] (prune lib config (q ++ t :: p)) = config := by
  rcases hh with rfl | ⟨hj, hh⟩
  · rw [Value.at?_nil, Option.some.injEq] at hw
    subst hw
    rw [List.nil_append]
    rcases prune_break lib (p := p) ht with ⟨h, -⟩ | ⟨h, -⟩ | ⟨h, -⟩ <;> rw [h] <;>
      simp only [finish, Value.replaceAt, ascend]
  · rcases prune_of_halts (p := p) hw ht hj hh with h | h <;> rw [h] <;>
      simp only [finish, Value.replaceAt]

end

/-- The function removes exactly the path where the path is removable, and nowhere else. -/
theorem removePath_exact_iff (lib : Jansson) (config : Value) (path : Text) :
    RemovesExactly config (tokens path) (removePath lib config path) ↔
      Removable lib config (tokens path) := by
  rw [removePath_eq]
  generalize tokens path = p
  by_cases hp : p = []
  · subst hp
    exact iff_of_true ⟨fun _ => rfl, fun h => absurd rfl h⟩ (.inl rfl)
  by_cases hat : config.at? p = none
  · constructor
    · intro h
      refine .inr (.inr fun q v token hpre hv htok => ?_)
      by_contra hh
      obtain ⟨rest, rfl⟩ := hpre
      have hsame := h.missing (.inr hat)
      rw [List.append_assoc, List.singleton_append, prune_of_not_halts (fun hq => hh (.inl hq)) hv
        htok fun hj hst => hh (.inr ⟨hj, hst⟩)] at hsame
      have hgone := finish_of_exists lib (fun hq => hh (.inl hq)) (by rw [hv]; exact nofun)
      have hnone := hgone.gone q ⟨fun hq => hh (.inl hq), [], (List.append_nil q).symm, v, hv, trivial⟩
      rw [hsame, hv] at hnone
      cases hnone
    · intro h
      obtain ⟨q, t, hpre, w, hw, ht⟩ := exists_break hat
      have hh := (h.resolve_left hp).resolve_left (not_not_intro hat) q w t hpre hw ht
      obtain ⟨rest, rfl⟩ := hpre
      refine ⟨fun _ => ?_, fun _ hne => absurd hat hne⟩
      rw [List.append_assoc, List.singleton_append]
      exact finish_of_halts hw ht hh
  · refine iff_of_true ⟨fun h => absurd (h.resolve_left hp) hat, fun _ _ => ?_⟩ (.inr (.inl hat))
    exact finish_of_exists lib hp hat

/-- A library that takes arrays as JSON and nulls not, and that raises nowhere. -/
def plainJansson : Jansson :=
  { nullIsJson := false, nullSize := 0, getRaises := fun _ _ => false
    setRaises := fun _ _ => false }

/-- `{"a": 5, "c": 1}` without the path `a.b`, which runs through a number: `a` is removed. -/
theorem not_removePath_exact : ¬ RemovesExactly
    (.obj [("a".toList, .num 5 0), ("c".toList, .num 1 0)]) (tokens "a.b".toList)
    (removePath plainJansson (.obj [("a".toList, .num 5 0), ("c".toList, .num 1 0)])
      "a.b".toList) := by
  intro h
  have hsame : none = some (Value.num 5 0) :=
    congrArg (fun v : Value => v.at? ["a".toList]) (h.missing (.inr rfl))
  cases hsame

end Dir842.RemovePath
