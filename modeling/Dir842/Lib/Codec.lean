import Mathlib.Tactic.TypeStar
import Mathlib.Data.List.Basic

/-!
# Writers and readers of byte streams

A writer appends to a buffer of limited size, a reader takes from the front of a list; either may
fail. `Writes` and `Reads` say what a program does when all goes well, and compose along its binds.
`Consumes` and `Yields` are what a reader takes and returns whenever it succeeds, whatever the bytes
are.
-/

namespace Dir842.Codec
variable {α β : Type}

abbrev Put := StateT (List UInt8) Option Unit

abbrev Get (α : Type) := StateT (List UInt8) Option α

/-- Reads `n` bytes. -/
def takeBytes (n : Nat) : Get (List UInt8) := do
  let s ← get
  if n ≤ s.length then
    set (s.drop n)
    return s.take n
  else failure

/-- `m` appends `bs` to every buffer with room for them. -/
def Writes (size : Nat) (m : Put) (bs : List UInt8) : Prop :=
  ∀ s, s.length + bs.length ≤ size → m.run s = some ((), s ++ bs)

/-- `m` takes the bytes `bs` and returns `a`. -/
def Reads (m : Get α) (bs : List UInt8) (a : α) : Prop :=
  ∀ rest, m.run (bs ++ rest) = some (a, rest)

/-- Where `m` succeeds it takes `n` bytes. -/
def Consumes (m : Get α) (n : Nat) : Prop :=
  ∀ s a rest, m.run s = some (a, rest) → s.length = n + rest.length

/-- Where `m` succeeds its value satisfies `Q`. -/
def Yields (m : Get α) (Q : α → Prop) : Prop :=
  ∀ s a rest, m.run s = some (a, rest) → Q a

namespace Writes
variable {size : Nat} {m m' : Put} {bs bs' : List UInt8}

theorem pure : Writes size (pure ()) [] := by
  intro s _
  show some ((), s) = some ((), s ++ [])
  rw [List.append_nil]

theorem bind (h : Writes size m bs) (h' : Writes size m' bs') :
    Writes size (m >>= fun _ => m') (bs ++ bs') := by
  intro s hs
  rw [List.length_append] at hs
  rw [StateT.run_bind, h s (by omega)]
  show m'.run _ = _
  rw [h' _ (by rw [List.length_append]; omega), List.append_assoc]

theorem ite {c : Prop} [Decidable c] (h : c → Writes size m bs) :
    Writes size (if c then m else Pure.pure ()) (if c then bs else []) := by
  split
  exacts [h ‹_›, pure]

theorem forM {f : α → Put} {enc : α → List UInt8} (l : List α)
    (h : ∀ a ∈ l, Writes size (f a) (enc a)) : Writes size (l.forM f) (l.flatMap enc) := by
  induction l with
  | nil => exact pure
  | cons a l ih =>
    exact (h a (List.mem_cons_self ..)).bind (ih fun b hb => h b (List.mem_cons_of_mem _ hb))

end Writes

namespace Reads
variable {m : Get α} {bs bs' : List UInt8} {a : α}

theorem pure (a : α) : Reads (pure a) [] a := fun _ => rfl

theorem bind {f : α → Get β} {b : β} (h : Reads m bs a) (h' : Reads (f a) bs' b) :
    Reads (m >>= f) (bs ++ bs') b := by
  intro rest
  rw [StateT.run_bind, List.append_assoc, h]
  exact h' rest

theorem map {f : α → β} (h : Reads m bs a) : Reads (f <$> m) bs (f a) := by
  intro rest
  rw [StateT.run_map, h]
  rfl

theorem bind_pure {f : α → β} (h : Reads m bs a) :
    Reads (m >>= fun a => Pure.pure (f a)) bs (f a) := by
  intro rest
  rw [StateT.run_bind, h]
  rfl

theorem ite {c : Prop} [Decidable c] {m' : Get α} {a' : α} (h : c → Reads m bs a)
    (h' : ¬c → Reads m' bs' a') :
    Reads (if c then m else m') (if c then bs else bs') (if c then a else a') := by
  split
  exacts [h ‹_›, h' ‹_›]

theorem takeBytes {n : Nat} (h : bs.length = n) : Reads (takeBytes n) bs bs := by
  intro rest
  simp [Codec.takeBytes, ← h]

/-- A reader that has read its bytes goes on with the rest. -/
theorem run_bind {f : α → Get β} (h : Reads m bs a) (rest : List UInt8) :
    (m >>= f).run (bs ++ rest) = (f a).run rest := by
  rw [StateT.run_bind, h]
  rfl

end Reads

namespace Consumes
variable {m : Get α} {n k : Nat}

theorem pure (a : α) : Consumes (pure a : Get α) 0 := by
  intro s b rest h
  simp only [StateT.run_pure, Option.pure_def, Option.some.injEq, Prod.mk.injEq] at h
  rw [h.2, Nat.zero_add]

theorem bind {f : α → Get β} (h : Consumes m n) (h' : ∀ a, Consumes (f a) k) :
    Consumes (m >>= f) (n + k) := by
  intro s b rest hs
  rw [StateT.run_bind, Option.bind_eq_bind, Option.bind_eq_some_iff] at hs
  obtain ⟨⟨a, s'⟩, hm, hf⟩ := hs
  rw [h s a s' hm, h' a s' b rest hf, Nat.add_assoc]

theorem ite {c : Prop} [Decidable c] {m' : Get α} (h : Consumes m n) (h' : Consumes m' k) :
    Consumes (if c then m else m') (if c then n else k) := by
  split
  exacts [h, h']

end Consumes

namespace Yields
variable {m : Get α} {Q : α → Prop} {R : β → Prop}

theorem trivial (m : Get α) : Yields m fun _ => True := fun _ _ _ _ => True.intro

theorem pure {a : α} (h : Q a) : Yields (pure a : Get α) Q := by
  intro s b rest hb
  simp only [StateT.run_pure, Option.pure_def, Option.some.injEq, Prod.mk.injEq] at hb
  exact hb.1 ▸ h

theorem failure : Yields (failure : Get α) Q := fun _ _ _ h => nomatch h

theorem bind {f : α → Get β} (h : Yields m Q) (h' : ∀ a, Q a → Yields (f a) R) :
    Yields (m >>= f) R := by
  intro s b rest hs
  rw [StateT.run_bind, Option.bind_eq_bind, Option.bind_eq_some_iff] at hs
  obtain ⟨⟨a, s'⟩, hm, hf⟩ := hs
  exact h' a (h s a s' hm) s' b rest hf

/-- The value of the first reader does not matter. -/
theorem of_bind {f : α → Get β} (h : ∀ a, Yields (f a) R) : Yields (m >>= f) R :=
  (trivial m).bind fun a _ => h a

theorem ite {c : Prop} [Decidable c] {m' : Get α} (h : Yields m Q) (h' : Yields m' Q) :
    Yields (if c then m else m') Q := by
  split
  exacts [h, h']

end Yields

end Dir842.Codec
