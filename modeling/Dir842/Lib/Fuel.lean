import Mathlib.Data.Nat.Basic

/-!
# Recursion with fuel

A function with a bound on its depth gives a result if all large bounds do. Results are composed as
the function composes its calls, and there is one result at most.
-/

namespace Dir842.Fuel

variable {α β : Type*} {f : ℕ → Option α} {a a' : α}

/-- `f` gives `a` with any fuel from some bound on. -/
def Gives (f : ℕ → Option α) (a : α) : Prop := ∃ n, ∀ m, n ≤ m → f m = some a

theorem Gives.exists_eq (h : Gives f a) : ∃ n, f n = some a := by
  obtain ⟨n, hn⟩ := h
  exact ⟨n, hn n (Nat.le_refl n)⟩

theorem Gives.unique (h : Gives f a) (h' : Gives f a') : a = a' := by
  obtain ⟨n, hn⟩ := h
  obtain ⟨n', hn'⟩ := h'
  have heq : some a = some a' :=
    (hn (max n n') (Nat.le_max_left n n')).symm.trans (hn' (max n n') (Nat.le_max_right n n'))
  exact Option.some.inj heq

theorem Gives.pure : Gives (fun _ => some a) a := ⟨0, fun _ _ => rfl⟩

theorem Gives.congr {g : ℕ → Option α} (h : Gives g a) (hfg : ∀ n, f n = g n) : Gives f a := by
  obtain ⟨n, hn⟩ := h
  exact ⟨n, fun m hm => (hfg m).trans (hn m hm)⟩

/-- One call uses up one. -/
theorem Gives.of_succ (h : Gives (fun n => f (n + 1)) a) : Gives f a := by
  obtain ⟨n, hn⟩ := h
  refine ⟨n + 1, fun m hm => ?_⟩
  obtain ⟨k, rfl⟩ := Nat.exists_eq_add_of_le' (Nat.le_trans (Nat.le_add_left 1 n) hm)
  exact hn k (Nat.le_of_succ_le_succ hm)

theorem Gives.bind {g : ℕ → α → Option β} {b : β} (h : Gives f a) (hg : Gives (g · a) b) :
    Gives (fun n => (f n).bind (g n)) b := by
  obtain ⟨n, hn⟩ := h
  obtain ⟨k, hk⟩ := hg
  refine ⟨max n k, fun m hm => ?_⟩
  show (f m).bind (g m) = some b
  rw [hn m (Nat.le_trans (Nat.le_max_left n k) hm), Option.bind_some]
  exact hk m (Nat.le_trans (Nat.le_max_right n k) hm)

theorem Gives.map {g : α → β} (h : Gives f a) : Gives (fun n => (f n).map g) (g a) := by
  obtain ⟨n, hn⟩ := h
  exact ⟨n, fun m hm => congrArg (Option.map g) (hn m hm)⟩

end Dir842.Fuel
