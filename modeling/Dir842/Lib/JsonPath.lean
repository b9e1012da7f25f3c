import Dir842.Lib.Json

/-!
# Paths of object members in JSON values

A path is a list of member names. `at?` reads what stands at a path, `replaceAt` writes there, and
`setMember`/`eraseMember` are the two updates of one object. The laws below say what each update
does to what `at?` reads; where an object holds a name twice its first member counts.
-/

namespace Json
namespace Value

def setMember (t : Text) (w : Value) : List (Text × Value) → List (Text × Value)
  | [] => []
  | (k, v) :: m => if k = t then (k, w) :: m else (k, v) :: setMember t w m

def eraseMember (t : Text) (m : List (Text × Value)) : List (Text × Value) :=
  m.filter fun kv => kv.1 ≠ t

def member? : Value → Text → Option Value
  | .obj m, t => m.lookup t
  | _, _ => none

def at? : Value → List Text → Option Value
  | v, [] => some v
  | v, t :: p => (v.member? t).bind (·.at? p)

/-- `v` with `w` at the path; `v` where the path does not exist. -/
def replaceAt : Value → List Text → Value → Value
  | _, [], w => w
  | .obj m, t :: p, w =>
    match m.lookup t with
    | some c => .obj (setMember t (c.replaceAt p w) m)
    | none => .obj m
  | v, _ :: _, _ => v

section
variable {m : List (Text × Value)} {s t : Text} {v w : Value}

theorem lookup_setMember_self (h : m.lookup t ≠ none) : (setMember t w m).lookup t = some w := by
  induction m with
  | nil => exact absurd rfl h
  | cons kv m ih =>
    obtain ⟨k, v⟩ := kv
    by_cases hk : k = t
    · subst hk; simp [setMember]
    · have hkt : (t == k) = false := beq_false_of_ne (Ne.symm hk)
      rw [List.lookup_cons, hkt] at h
      rw [setMember, if_neg hk, List.lookup_cons, hkt]
      exact ih h

theorem lookup_setMember_of_ne (h : s ≠ t) : (setMember t w m).lookup s = m.lookup s := by
  induction m with
  | nil => rfl
  | cons kv m ih =>
    obtain ⟨k, v⟩ := kv
    by_cases hk : k = t
    · have hsk : (s == k) = false := beq_false_of_ne (by rw [hk]; exact h)
      rw [setMember, if_pos hk, List.lookup_cons, List.lookup_cons, hsk]
    · rw [setMember, if_neg hk, List.lookup_cons, List.lookup_cons, ih]

theorem setMember_eq_self (h : m.lookup t = some w) : setMember t w m = m := by
  induction m with
  | nil => rfl
  | cons kv m ih =>
    obtain ⟨k, v⟩ := kv
    by_cases hk : k = t
    · subst hk
      rw [List.lookup_cons, beq_self_eq_true] at h
      rw [setMember, if_pos rfl, Option.some.inj h]
    · rw [List.lookup_cons, beq_false_of_ne (Ne.symm hk)] at h
      rw [setMember, if_neg hk, ih h]

theorem setMember_setMember (v w : Value) :
    setMember t w (setMember t v m) = setMember t w m := by
  induction m with
  | nil => rfl
  | cons kv m ih =>
    obtain ⟨k, v'⟩ := kv
    by_cases hk : k = t <;> simp [setMember, hk, ih]

theorem eraseMember_setMember (w : Value) : eraseMember t (setMember t w m) = eraseMember t m := by
  induction m with
  | nil => rfl
  | cons kv m ih =>
    obtain ⟨k, v⟩ := kv
    unfold eraseMember at ih ⊢
    by_cases hk : k = t
    · subst hk; simp [setMember]
    · rw [setMember, if_neg hk, List.filter_cons_of_pos (a := (k, v)) (decide_eq_true hk),
        List.filter_cons_of_pos (a := (k, v)) (decide_eq_true hk), ih]

theorem lookup_eq_none_iff : m.lookup t = none ↔ ∀ kv ∈ m, kv.1 ≠ t := by
  rw [List.lookup_eq_none_iff]
  refine forall₂_congr fun kv _ => ?_
  rw [bne_iff_ne]
  exact ne_comm

theorem lookup_eraseMember_self : (eraseMember t m).lookup t = none :=
  lookup_eq_none_iff.mpr fun _ hkv => of_decide_eq_true (List.mem_filter.mp hkv).2

theorem lookup_eraseMember_of_ne (h : s ≠ t) : (eraseMember t m).lookup s = m.lookup s := by
  unfold eraseMember
  induction m with
  | nil => rfl
  | cons kv m ih =>
    obtain ⟨k, v⟩ := kv
    by_cases hk : k = t
    · have hsk : (s == k) = false := beq_false_of_ne (by rw [hk]; exact h)
      rw [List.filter_cons_of_neg (by simpa using hk), List.lookup_cons, hsk, ih]
    · rw [List.filter_cons_of_pos (by simpa using hk), List.lookup_cons, List.lookup_cons, ih]

theorem eraseMember_of_lookup (h : m.lookup t = none) : eraseMember t m = m :=
  List.filter_eq_self.mpr fun kv hkv => decide_eq_true (lookup_eq_none_iff.mp h kv hkv)

theorem eraseMember_eq_nil_iff : eraseMember t m = [] ↔ ∀ s ≠ t, m.lookup s = none := by
  constructor
  · intro h s hs
    rw [← lookup_eraseMember_of_ne hs, h, List.lookup_nil]
  · intro h
    refine List.filter_eq_nil_iff.mpr fun kv hkv hne => ?_
    exact lookup_eq_none_iff.mp (h kv.1 (of_decide_eq_true hne)) kv hkv rfl

@[simp] theorem at?_nil : v.at? [] = some v := by cases v <;> rfl

theorem at?_cons {p : List Text} : v.at? (t :: p) = (v.member? t).bind (·.at? p) := by
  cases v <;> rfl

theorem at?_append {p q : List Text} : v.at? (p ++ q) = (v.at? p).bind (·.at? q) := by
  induction p generalizing v with
  | nil => simp
  | cons t p ih =>
    rw [List.cons_append, at?_cons, at?_cons, Option.bind_assoc]
    exact congrArg _ (funext fun _ => ih)

theorem exists_obj_of_member? (h : v.member? t = some w) : ∃ m, v = .obj m ∧ m.lookup t = some w := by
  cases v with
  | obj m => exact ⟨m, rfl, h⟩
  | null | bool _ | num _ _ | str _ | arr _ => exact nomatch h

theorem exists_obj_of_at?_cons {p : List Text} (h : v.at? (t :: p) = some w) :
    ∃ m c, v = .obj m ∧ m.lookup t = some c ∧ c.at? p = some w := by
  rw [at?_cons] at h
  obtain ⟨c, hc, hw⟩ := Option.bind_eq_some_iff.mp h
  obtain ⟨m, rfl, hm⟩ := exists_obj_of_member? hc
  exact ⟨m, c, rfl, hm, hw⟩

theorem replaceAt_cons {p : List Text} {c : Value} (h : m.lookup t = some c) :
    (obj m).replaceAt (t :: p) w = .obj (setMember t (c.replaceAt p w) m) := by
  simp only [replaceAt, h]

theorem at?_replaceAt {p : List Text} {u : Value} (h : v.at? p = some u) :
    (v.replaceAt p w).at? p = some w := by
  induction p generalizing v with
  | nil => simp [replaceAt]
  | cons t p ih =>
    obtain ⟨m, c, rfl, hm, hu⟩ := exists_obj_of_at?_cons h
    rw [replaceAt_cons hm, at?_cons, member?, lookup_setMember_self (by rw [hm]; exact nofun)]
    exact ih hu

theorem replaceAt_replaceAt {p : List Text} {u : Value} (h : v.at? p = some u) (w' : Value) :
    (v.replaceAt p w').replaceAt p w = v.replaceAt p w := by
  induction p generalizing v with
  | nil => simp [replaceAt]
  | cons t p ih =>
    obtain ⟨m, c, rfl, hm, hu⟩ := exists_obj_of_at?_cons h
    have hset := lookup_setMember_self (w := c.replaceAt p w') (by rw [hm]; exact nofun)
    rw [replaceAt_cons hm, replaceAt_cons hset, replaceAt_cons hm, ih hu, setMember_setMember]

/-- Writing below `p` is writing the changed object at `p`. -/
theorem replaceAt_concat {p : List Text} {c : Value} (h : v.at? p = some (.obj m))
    (hc : m.lookup t = some c) :
    v.replaceAt (p ++ [t]) w = v.replaceAt p (.obj (setMember t w m)) := by
  induction p generalizing v with
  | nil =>
    rw [at?_nil, Option.some.injEq] at h
    subst h
    rw [List.nil_append, replaceAt_cons hc]
    simp [replaceAt]
  | cons s p ih =>
    obtain ⟨m', u, rfl, hm', hm⟩ := exists_obj_of_at?_cons h
    rw [List.cons_append, replaceAt_cons hm', replaceAt_cons hm', ih hm]

end

end Value
end Json
