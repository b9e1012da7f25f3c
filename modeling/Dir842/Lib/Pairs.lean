import Mathlib.Data.List.Perm.Basic
import Mathlib.Tactic.TypeStar

/-!
# Working through all pairs

`visit x y` works on two entries and says how often it has done something. `cross` lets every entry
of one list meet every entry of another, `among` lets every entry of a list meet all the others;
what a visit has left of its entries is what the next visit finds.

A property of the entries that does not look at their order is kept by the whole work when it is
kept by one visit of the first two.
-/

namespace Dir842.Pairs
variable {α : Type*} (visit : α → α → α × α × ℕ)

/-- One entry meets the entries of a list, in their order. -/
def sweep : α → List α → α × List α × ℕ
  | x, [] => (x, [], 0)
  | x, y :: ys =>
    let (x, y, k) := visit x y
    let (x, ys, n) := sweep x ys
    (x, y :: ys, k + n)

def cross : List α → List α → List α × List α × ℕ
  | [], ys => ([], ys, 0)
  | x :: xs, ys =>
    let (x, ys, k) := sweep visit x ys
    let (xs, ys, n) := cross xs ys
    (x :: xs, ys, k + n)

/-- The next `n` entries each meet those before them and those behind them. -/
def amongFrom : ℕ → List α → List α → List α × ℕ
  | n + 1, front, x :: back =>
    let (x, front, i) := sweep visit x front
    let (x, back, j) := sweep visit x back
    let (l, k) := amongFrom n (front ++ [x]) back
    (l, i + j + k)
  | _, front, back => (front ++ back, 0)

def among (l : List α) : List α × ℕ := amongFrom visit l.length [] l

variable {visit}

@[simp] theorem sweep_nil (x : α) : sweep visit x [] = (x, [], 0) := rfl

theorem sweep_cons (x y : α) (ys : List α) :
    sweep visit x (y :: ys) =
      ((sweep visit (visit x y).1 ys).1, (visit x y).2.1 :: (sweep visit (visit x y).1 ys).2.1,
        (visit x y).2.2 + (sweep visit (visit x y).1 ys).2.2) := rfl

theorem cross_cons (x : α) (xs ys : List α) :
    cross visit (x :: xs) ys =
      ((sweep visit x ys).1 :: (cross visit xs (sweep visit x ys).2.1).1,
        (cross visit xs (sweep visit x ys).2.1).2.1,
        (sweep visit x ys).2.2 + (cross visit xs (sweep visit x ys).2.1).2.2) := rfl

theorem amongFrom_nil (n : ℕ) (front : List α) : amongFrom visit n front [] = (front, 0) := by
  cases n <;> simp [amongFrom]

theorem amongFrom_cons (n : ℕ) (front : List α) (x : α) (back : List α) :
    amongFrom visit (n + 1) front (x :: back) =
      ((amongFrom visit n ((sweep visit x front).2.1 ++
            [(sweep visit (sweep visit x front).1 back).1])
          (sweep visit (sweep visit x front).1 back).2.1).1,
        (sweep visit x front).2.2 + (sweep visit (sweep visit x front).1 back).2.2 +
          (amongFrom visit n ((sweep visit x front).2.1 ++
              [(sweep visit (sweep visit x front).1 back).1])
            (sweep visit (sweep visit x front).1 back).2.1).2) := rfl

/-! ### What one visit keeps -/

section two
variable {Inv : List α → List α → ℕ → Prop}
  (hperm : ∀ {xs xs' ys ys' : List α} {k : ℕ}, xs.Perm xs' → ys.Perm ys' → Inv xs ys k → Inv xs' ys' k)
  (hvisit : ∀ {x y : α} {xs ys : List α} {k : ℕ}, Inv (x :: xs) (y :: ys) k →
    Inv ((visit x y).1 :: xs) ((visit x y).2.1 :: ys) (k + (visit x y).2.2))
include hperm hvisit

theorem sweep_rule {x : α} {xs done ys : List α} {k : ℕ} (h : Inv (x :: xs) (done ++ ys) k) :
    Inv ((sweep visit x ys).1 :: xs) (done ++ (sweep visit x ys).2.1) (k + (sweep visit x ys).2.2) := by
  induction ys generalizing x done k with
  | nil => exact h
  | cons y ys ih =>
    have hmet := hvisit (hperm (.refl _) List.perm_middle h)
    have hnext : Inv ((visit x y).1 :: xs) ((done ++ [(visit x y).2.1]) ++ ys)
        (k + (visit x y).2.2) := by
      refine hperm (.refl _) ?_ hmet
      rw [List.append_assoc]
      exact List.perm_middle.symm
    have hrest := ih hnext
    rw [sweep_cons, ← Nat.add_assoc]
    simpa only [List.append_assoc, List.singleton_append] using hrest

theorem cross_rule {done xs ys : List α} {k : ℕ} (h : Inv (done ++ xs) ys k) :
    Inv (done ++ (cross visit xs ys).1) (cross visit xs ys).2.1 (k + (cross visit xs ys).2.2) := by
  induction xs generalizing done ys k with
  | nil => exact h
  | cons x xs ih =>
    have hmet := @sweep_rule _ visit Inv hperm hvisit x (done ++ xs) [] ys k
      (hperm List.perm_middle (.refl _) h)
    have hnext : Inv ((done ++ [(sweep visit x ys).1]) ++ xs) (sweep visit x ys).2.1
        (k + (sweep visit x ys).2.2) := by
      refine hperm ?_ (.refl _) hmet
      rw [List.append_assoc]
      exact List.perm_middle.symm
    have hrest := ih hnext
    rw [cross_cons, ← Nat.add_assoc]
    simpa only [List.append_assoc, List.singleton_append] using hrest

end two

section one
variable {Inv : List α → ℕ → Prop}
  (hperm : ∀ {l l' : List α} {k : ℕ}, l.Perm l' → Inv l k → Inv l' k)
  (hvisit : ∀ {x y : α} {l : List α} {k : ℕ}, Inv (x :: y :: l) k →
    Inv ((visit x y).1 :: (visit x y).2.1 :: l) (k + (visit x y).2.2))
include hperm hvisit

theorem sweep_rule_one {x : α} {ys rest : List α} {k : ℕ} (h : Inv (x :: ys ++ rest) k) :
    Inv ((sweep visit x ys).1 :: (sweep visit x ys).2.1 ++ rest) (k + (sweep visit x ys).2.2) := by
  refine @sweep_rule _ visit (fun xs ys k => Inv (xs ++ ys ++ rest) k) ?_ ?_ x [] [] ys k h
  · intro xs xs' ys ys' k hx hy
    exact hperm ((hx.append hy).append_right rest)
  · intro x y xs ys k hinv
    have hto : (x :: xs ++ y :: ys ++ rest).Perm (x :: y :: (xs ++ ys ++ rest)) := by
      simp
    have hback : ((visit x y).1 :: (visit x y).2.1 :: (xs ++ ys ++ rest)).Perm
        ((visit x y).1 :: xs ++ (visit x y).2.1 :: ys ++ rest) := by
      simpa using List.perm_middle.symm
    exact hperm hback (hvisit (hperm hto hinv))

theorem amongFrom_rule {n : ℕ} {front back : List α} {k : ℕ} (h : Inv (front ++ back) k) :
    Inv (amongFrom visit n front back).1 (k + (amongFrom visit n front back).2) := by
  induction n generalizing front back k with
  | zero => exact h
  | succ n ih =>
    rcases back with _ | ⟨x, back⟩
    · rw [amongFrom_nil]
      simpa using h
    · have hfront := @sweep_rule_one _ visit Inv hperm hvisit x front back k
        (hperm List.perm_middle h)
      have hback := @sweep_rule_one _ visit Inv hperm hvisit (sweep visit x front).1 back
        (sweep visit x front).2.1 _ (hperm (List.perm_append_comm.cons _) hfront)
      have hmoved : ((sweep visit (sweep visit x front).1 back).1 ::
            (sweep visit (sweep visit x front).1 back).2.1 ++ (sweep visit x front).2.1).Perm
          ((sweep visit x front).2.1 ++ [(sweep visit (sweep visit x front).1 back).1] ++
            (sweep visit (sweep visit x front).1 back).2.1) := by
        rw [List.append_assoc]
        exact (List.perm_append_comm.cons _).trans List.perm_middle.symm
      have hnext := ih (hperm hmoved hback)
      rw [amongFrom_cons]
      simpa only [Nat.add_assoc] using hnext

theorem among_rule {l : List α} (h : Inv l 0) : Inv (among visit l).1 (among visit l).2 := by
  have hrun := @amongFrom_rule _ visit Inv hperm hvisit l.length [] l 0 h
  rwa [Nat.zero_add] at hrun

end one

theorem length_cross (xs ys : List α) :
    (cross visit xs ys).1.length = xs.length ∧ (cross visit xs ys).2.1.length = ys.length := by
  refine @cross_rule _ visit (fun xs' ys' _ => xs'.length = xs.length ∧ ys'.length = ys.length)
    ?_ ?_ [] xs ys 0 ⟨rfl, rfl⟩
  · intro _ _ _ _ _ hx hy h
    rwa [← hx.length_eq, ← hy.length_eq]
  · exact id

theorem length_among (l : List α) : (among visit l).1.length = l.length := by
  refine @among_rule _ visit (fun l' _ => l'.length = l.length) ?_ ?_ l rfl
  · intro _ _ _ hp h
    rwa [← hp.length_eq]
  · exact id

/-! ### Work that does nothing -/

section idle
variable (hidle : ∀ x y, (visit x y).2.2 = 0 → (visit x y).1 = x ∧ (visit x y).2.1 = y)
include hidle

theorem sweep_idle {x : α} {ys : List α} (h : (sweep visit x ys).2.2 = 0) :
    (sweep visit x ys).1 = x ∧ (sweep visit x ys).2.1 = ys := by
  induction ys generalizing x with
  | nil => exact ⟨rfl, rfl⟩
  | cons y ys ih =>
    rw [sweep_cons] at h ⊢
    obtain ⟨hx, hy⟩ := hidle x y (Nat.eq_zero_of_add_eq_zero_right h)
    obtain ⟨hx', hys⟩ := ih (Nat.eq_zero_of_add_eq_zero_left h)
    rw [hx] at hx' hys
    exact ⟨by rw [hx, hx'], by rw [hx, hy, hys]⟩

theorem amongFrom_idle {n : ℕ} {front back : List α} (h : (amongFrom visit n front back).2 = 0) :
    (amongFrom visit n front back).1 = front ++ back := by
  induction n generalizing front back with
  | zero => rfl
  | succ n ih =>
    rcases back with _ | ⟨x, back⟩
    · rw [amongFrom_nil, List.append_nil]
    · rw [amongFrom_cons] at h ⊢
      have h0 := Nat.eq_zero_of_add_eq_zero_right h
      obtain ⟨hx, hfront⟩ := sweep_idle hidle (Nat.eq_zero_of_add_eq_zero_right h0)
      obtain ⟨hx', hback⟩ := sweep_idle hidle (Nat.eq_zero_of_add_eq_zero_left h0)
      have hrest := ih (Nat.eq_zero_of_add_eq_zero_left h)
      rw [hrest, hback, hx', hx, hfront, List.append_assoc, List.singleton_append]

theorem among_idle {l : List α} (h : (among visit l).2 = 0) : (among visit l).1 = l :=
  amongFrom_idle hidle h

theorem forall_of_sweep_zero {x : α} {ys : List α} (h : (sweep visit x ys).2.2 = 0) :
    ∀ y ∈ ys, (visit x y).2.2 = 0 := by
  induction ys generalizing x with
  | nil => exact List.forall_mem_nil _
  | cons y ys ih =>
    rw [sweep_cons] at h
    have h0 := Nat.eq_zero_of_add_eq_zero_right h
    have hrest := Nat.eq_zero_of_add_eq_zero_left h
    rw [(hidle x y h0).1] at hrest
    exact List.forall_mem_cons.mpr ⟨h0, ih hrest⟩

theorem pairwise_of_amongFrom_zero {n : ℕ} {front back : List α} (hn : back.length ≤ n)
    (h : (amongFrom visit n front back).2 = 0) :
    back.Pairwise (fun x y => (visit x y).2.2 = 0 ∧ (visit y x).2.2 = 0) ∧
      ∀ x ∈ front, ∀ y ∈ back, (visit y x).2.2 = 0 := by
  induction n generalizing front back with
  | zero =>
    rw [List.eq_nil_of_length_eq_zero (Nat.le_zero.mp hn)]
    exact ⟨List.Pairwise.nil, fun _ _ => List.forall_mem_nil _⟩
  | succ n ih =>
    rcases back with _ | ⟨x, back⟩
    · exact ⟨List.Pairwise.nil, fun _ _ => List.forall_mem_nil _⟩
    · rw [amongFrom_cons] at h
      have h0 := Nat.eq_zero_of_add_eq_zero_right h
      have hfront0 := Nat.eq_zero_of_add_eq_zero_right h0
      have hback0 := Nat.eq_zero_of_add_eq_zero_left h0
      obtain ⟨hx, hfront⟩ := sweep_idle hidle hfront0
      rw [hx] at hback0
      obtain ⟨hx', hback⟩ := sweep_idle hidle hback0
      have hrest := Nat.eq_zero_of_add_eq_zero_left h
      rw [hx, hfront, hx', hback] at hrest
      obtain ⟨hpair, hcross⟩ := ih (Nat.le_of_succ_le_succ hn) hrest
      refine ⟨List.pairwise_cons.mpr ⟨fun y hy => ⟨?_, ?_⟩, hpair⟩, fun z hz => ?_⟩
      · exact forall_of_sweep_zero hidle hback0 y hy
      · exact hcross x (List.mem_append_right _ (List.mem_singleton_self x)) y hy
      · refine List.forall_mem_cons.mpr ⟨forall_of_sweep_zero hidle hfront0 z hz, fun y hy => ?_⟩
        exact hcross z (List.mem_append_left _ hz) y hy

/-- Work that has done nothing has had nothing to do at any two places. -/
theorem pairwise_of_among_zero {l : List α} (h : (among visit l).2 = 0) :
    l.Pairwise fun x y => (visit x y).2.2 = 0 ∧ (visit y x).2.2 = 0 :=
  (pairwise_of_amongFrom_zero hidle (Nat.le_refl _) h).1

end idle

/-! ### Visits that agree -/

section congr
variable {visit' : α → α → α × α × ℕ} {P : α → Prop}
  (hkeep : ∀ x y, P x → P y → P (visit x y).1 ∧ P (visit x y).2.1)
  (hcongr : ∀ x y, P x → P y → visit x y = visit' x y)
include hkeep

theorem sweep_keep {x : α} {ys : List α} (hx : P x) (hys : ∀ y ∈ ys, P y) :
    P (sweep visit x ys).1 ∧ ∀ y ∈ (sweep visit x ys).2.1, P y := by
  induction ys generalizing x with
  | nil => exact ⟨hx, hys⟩
  | cons y ys ih =>
    obtain ⟨hy, hys⟩ := List.forall_mem_cons.mp hys
    obtain ⟨hx', hy'⟩ := hkeep x y hx hy
    obtain ⟨hx'', hys'⟩ := ih hx' hys
    exact ⟨hx'', List.forall_mem_cons.mpr ⟨hy', hys'⟩⟩

theorem amongFrom_keep {n : ℕ} {front back : List α} (hfront : ∀ x ∈ front, P x)
    (hback : ∀ x ∈ back, P x) : ∀ x ∈ (amongFrom visit n front back).1, P x := by
  induction n generalizing front back with
  | zero => exact List.forall_mem_append.mpr ⟨hfront, hback⟩
  | succ n ih =>
    rcases back with _ | ⟨x, back⟩
    · rwa [amongFrom_nil]
    · obtain ⟨hx, hback⟩ := List.forall_mem_cons.mp hback
      obtain ⟨hx', hfront'⟩ := sweep_keep hkeep hx hfront
      obtain ⟨hx'', hback'⟩ := sweep_keep hkeep hx' hback
      exact ih (List.forall_mem_append.mpr ⟨hfront', List.forall_mem_singleton.mpr hx''⟩) hback'

theorem among_keep {l : List α} (hl : ∀ x ∈ l, P x) : ∀ x ∈ (among visit l).1, P x :=
  amongFrom_keep hkeep (List.forall_mem_nil P) hl

include hcongr

theorem sweep_congr {x : α} {ys : List α} (hx : P x) (hys : ∀ y ∈ ys, P y) :
    sweep visit x ys = sweep visit' x ys := by
  induction ys generalizing x with
  | nil => rfl
  | cons y ys ih =>
    obtain ⟨hy, hys⟩ := List.forall_mem_cons.mp hys
    have hrest := ih (hkeep x y hx hy).1 hys
    rw [sweep_cons, sweep_cons, hrest, hcongr x y hx hy]

theorem cross_congr {xs ys : List α} (hxs : ∀ x ∈ xs, P x) (hys : ∀ y ∈ ys, P y) :
    cross visit xs ys = cross visit' xs ys := by
  induction xs generalizing ys with
  | nil => rfl
  | cons x xs ih =>
    obtain ⟨hx, hxs⟩ := List.forall_mem_cons.mp hxs
    have hrest := ih hxs (sweep_keep hkeep hx hys).2
    rw [cross_cons, cross_cons, hrest, sweep_congr hkeep hcongr hx hys]

theorem amongFrom_congr {n : ℕ} {front back : List α} (hfront : ∀ x ∈ front, P x)
    (hback : ∀ x ∈ back, P x) : amongFrom visit n front back = amongFrom visit' n front back := by
  induction n generalizing front back with
  | zero => rfl
  | succ n ih =>
    rcases back with _ | ⟨x, back⟩
    · rw [amongFrom_nil, amongFrom_nil]
    · obtain ⟨hx, hback⟩ := List.forall_mem_cons.mp hback
      obtain ⟨hx', hfront'⟩ := sweep_keep hkeep hx hfront
      obtain ⟨hx'', hback'⟩ := sweep_keep hkeep hx' hback
      have hrest := ih (List.forall_mem_append.mpr ⟨hfront', List.forall_mem_singleton.mpr hx''⟩)
        hback'
      rw [amongFrom_cons, amongFrom_cons, hrest, sweep_congr hkeep hcongr hx' hback,
        sweep_congr hkeep hcongr hx hfront]

theorem among_congr {l : List α} (hl : ∀ x ∈ l, P x) : among visit l = among visit' l :=
  amongFrom_congr hkeep hcongr (List.forall_mem_nil P) hl

end congr

end Dir842.Pairs
