import Mathlib.Logic.Basic
import Mathlib.Data.List.Basic

/-!
# Programs that always give the same

A program with a state, which may fail, is steady if it gives one and the same value from every
state of an invariant, and keeps the invariant: what it finds in the state only saves it work. The
rules compose steady programs. `R` relates the states before and after, so that what `R` keeps need
not be an invariant.
-/

namespace Dir842

universe u

variable {σ α β : Type u}

/-- From a state of `I` for which `P` holds, `x` gives `a` and a state of `I` for which `Q` holds. -/
def Steady (I : σ → Prop) (R : σ → σ → Prop) (P : σ → Prop) (x : StateT σ Option α) (a : α)
    (Q : σ → Prop) : Prop :=
  ∀ s, I s → P s → ∃ s', x s = some (a, s') ∧ I s' ∧ R s s' ∧ Q s'

namespace Steady
variable {I : σ → Prop} {R : σ → σ → Prop} {P Q Q' F : σ → Prop} {x : StateT σ Option α} {a : α} {b : β}

theorem pure [Std.Refl R] : Steady I R P (pure a) a P :=
  fun s hI hP => ⟨s, rfl, hI, refl_of R s, hP⟩

theorem bind [IsTrans σ R] {f : α → StateT σ Option β} (hx : Steady I R P x a Q)
    (hf : Steady I R Q (f a) b Q') : Steady I R P (x >>= f) b Q' := by
  intro s hI hP
  obtain ⟨s', hrun, hI', hR, hQ⟩ := hx s hI hP
  obtain ⟨s'', hrun', hI'', hR', hQ'⟩ := hf s' hI' hQ
  refine ⟨s'', ?_, hI'', trans_of R hR hR', hQ'⟩
  show (x s).bind (fun p => f p.1 p.2) = _
  rw [hrun]
  exact hrun'

/-- A program that looks at what is the same in all states. -/
theorem get {f : σ → StateT σ Option β} {y : StateT σ Option β} (hf : ∀ s, I s → P s → f s = y)
    (hy : Steady I R P y b Q) : Steady I R P (MonadState.get >>= f) b Q := by
  intro s hI hP
  show ∃ s', f s s = _ ∧ _
  rw [hf s hI hP]
  exact hy s hI hP

theorem modify {f : σ → σ} (hf : ∀ s, I s → P s → I (f s) ∧ R s (f s) ∧ Q (f s)) :
    Steady I R P (modify f) PUnit.unit Q :=
  fun s hI hP => ⟨f s, rfl, hf s hI hP⟩

theorem pre {P' : σ → Prop} (h : Steady I R P x a Q) (hP : ∀ s, I s → P' s → P s) :
    Steady I R P' x a Q :=
  fun s hI hP' => h s hI (hP s hI hP')

theorem post (h : Steady I R P x a Q) (hQ : ∀ s, I s → Q s → Q' s) : Steady I R P x a Q' := by
  intro s hI hP
  obtain ⟨s', hrun, hI', hR, hQs⟩ := h s hI hP
  exact ⟨s', hrun, hI', hR, hQ s' hI' hQs⟩

theorem rel {R' : σ → σ → Prop} (h : Steady I R P x a Q) (hR : ∀ s s', R s s' → R' s s') :
    Steady I R' P x a Q := by
  intro s hI hP
  obtain ⟨s', hrun, hI', hRs, hQ⟩ := h s hI hP
  exact ⟨s', hrun, hI', hR s s' hRs, hQ⟩

/-- What `R` keeps holds afterwards too. -/
theorem frame (h : Steady I R P x a Q) (hF : ∀ s s', I s → I s' → R s s' → F s → F s') :
    Steady I R (fun s => P s ∧ F s) x a (fun s => Q s ∧ F s) := by
  rintro s hI ⟨hP, hFs⟩
  obtain ⟨s', hrun, hI', hR, hQ⟩ := h s hI hP
  exact ⟨s', hrun, hI', hR, hQ, hF s s' hI hI' hR hFs⟩

theorem congr {y : StateT σ Option α} {b : α} (h : Steady I R P x a Q) (hy : y = x) (hb : b = a) :
    Steady I R P y b Q := by
  rwa [hy, hb]

end Steady

end Dir842
