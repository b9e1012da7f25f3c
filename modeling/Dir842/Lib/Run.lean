import Mathlib.Data.List.Induction
import Mathlib.Tactic.TypeStar

/-!
# Runs of a deterministic step function

A component is a step function `σ → ε → σ`; a run is a list of events. `Along P` says that a
property of single steps holds at every step of a run. The rules carry an invariant through the
run, so that a development proves one step and gets the run.
-/

namespace Dir842.Run
variable {σ ε : Type*} (step : σ → ε → σ)

/-- The state after the events `es`. -/
def final : σ → List ε → σ
  | s, [] => s
  | s, e :: es => final (step s e) es

/-- `P` holds of the state before and the event at every step of the run. -/
def Along (P : σ → ε → Prop) : σ → List ε → Prop
  | _, [] => True
  | s, e :: es => P s e ∧ Along P (step s e) es

variable {step}

@[simp] theorem final_nil (s : σ) : final step s [] = s := rfl

@[simp] theorem final_cons (s : σ) (e : ε) (es : List ε) :
    final step s (e :: es) = final step (step s e) es := rfl

theorem final_append (s : σ) (es fs : List ε) :
    final step s (es ++ fs) = final step (final step s es) fs := by
  induction es generalizing s with
  | nil => rfl
  | cons e es ih => exact ih (step s e)

@[simp] theorem along_nil {P : σ → ε → Prop} (s : σ) : Along step P s [] := trivial

@[simp] theorem along_cons {P : σ → ε → Prop} {s : σ} {e : ε} {es : List ε} :
    Along step P s (e :: es) ↔ P s e ∧ Along step P (step s e) es := Iff.rfl

theorem along_append {P : σ → ε → Prop} {s : σ} {es fs : List ε} :
    Along step P s (es ++ fs) ↔ Along step P s es ∧ Along step P (final step s es) fs := by
  induction es generalizing s with
  | nil => simp
  | cons e es ih => simp [ih, and_assoc]

/-- What holds of an event and what comes before and behind it. -/
theorem forall_split_cons {Q : List ε → ε → List ε → Prop} {e : ε} {es : List ε} :
    (∀ pre a post, e :: es = pre ++ a :: post → Q pre a post) ↔
      Q [] e es ∧ ∀ pre a post, es = pre ++ a :: post → Q (e :: pre) a post := by
  constructor
  · intro h
    exact ⟨h [] e es rfl, fun pre a post heq => h (e :: pre) a post (congrArg (e :: ·) heq)⟩
  · rintro ⟨hfirst, hrest⟩ pre a post heq
    rcases List.cons_eq_append_iff.mp heq with ⟨rfl, h⟩ | ⟨pre', rfl, h⟩
    · obtain ⟨rfl, rfl⟩ := List.cons.inj h
      exact hfirst
    · exact hrest pre' a post h

theorem along_iff_forall {P : σ → ε → Prop} {s : σ} {es : List ε} :
    Along step P s es ↔ ∀ pre e post, es = pre ++ e :: post → P (final step s pre) e := by
  induction es generalizing s with
  | nil =>
    refine iff_of_true trivial fun pre e post heq => ?_
    exact absurd heq.symm (List.append_ne_nil_of_right_ne_nil _ (List.cons_ne_nil _ _))
  | cons e es ih =>
    rw [along_cons, ih, forall_split_cons]
    rfl

section rules
variable {Inv : σ → Prop} {C P : σ → ε → Prop} {s : σ} {es : List ε}

/-- Where the guard is exact under the invariant, for the events of the run, the runs that keep `P`
are the guarded ones. -/
theorem along_iff_of_inv_of_mem {E : ε → Prop} (hes : ∀ e ∈ es, E e)
    (hiff : ∀ s e, E e → Inv s → (P s e ↔ C s e))
    (hstep : ∀ s e, E e → Inv s → C s e → Inv (step s e)) (h : Inv s) :
    Along step P s es ↔ Along step C s es := by
  induction es generalizing s with
  | nil => exact Iff.rfl
  | cons e es ih =>
    obtain ⟨he, hes⟩ := List.forall_mem_cons.mp hes
    rw [along_cons, along_cons, hiff s e he h]
    exact and_congr_right fun hC => ih hes (hstep s e he h hC)

theorem along_iff_of_inv (hiff : ∀ s e, Inv s → (P s e ↔ C s e))
    (hstep : ∀ s e, Inv s → C s e → Inv (step s e)) (h : Inv s) :
    Along step P s es ↔ Along step C s es :=
  along_iff_of_inv_of_mem (fun _ _ => trivial) (fun s e (_ : True) => hiff s e)
    (fun s e _ => hstep s e) h

theorem along_congr (h : ∀ s e, P s e ↔ C s e) : Along step P s es ↔ Along step C s es :=
  @along_iff_of_inv _ _ step (fun _ => True) C P s es (fun s e _ => h s e) (fun _ _ _ _ => trivial)
    trivial

theorem inv_final (hstep : ∀ s e, Inv s → Inv (step s e)) (h : Inv s) : Inv (final step s es) := by
  induction es generalizing s with
  | nil => exact h
  | cons e es ih => exact ih (hstep s e h)

end rules

/-! ### Steps that each work on a place of their own -/

section own
variable {κ υ τ : Type*} {get : σ → κ → υ} {key : ε → κ} {f : ε → υ → υ} {s : σ} {es : List ε}
  (hself : ∀ s e, get (step s e) (key e) = f e (get s (key e)))
  (hother : ∀ s e k, k ≠ key e → get (step s e) k = get s k)
include hother

theorem final_of_not_mem {k : κ} (hk : k ∉ es.map key) : get (final step s es) k = get s k := by
  induction es generalizing s with
  | nil => rfl
  | cons e es ih =>
    obtain ⟨hne, hk⟩ := not_or.mp (mt List.mem_cons.mpr hk)
    rw [final_cons, ih hk, hother s e k hne]

/-- What is still to be worked on is as it was before. -/
theorem get_step_of_nodup {e e' : ε} (h : ((e :: es).map key).Nodup) (he : e' ∈ es) :
    get (step s e) (key e') = get s (key e') := by
  refine hother s e _ fun hkey => (List.nodup_cons.mp h).1 ?_
  rw [← hkey]
  exact List.mem_map_of_mem he

theorem along_own_iff {P : σ → ε → Prop} {Q : ε → υ → Prop}
    (hP : ∀ s e, P s e ↔ Q e (get s (key e))) (h : (es.map key).Nodup) :
    Along step P s es ↔ ∀ e ∈ es, Q e (get s (key e)) := by
  induction es generalizing s with
  | nil => simp
  | cons e es ih =>
    have hkeep : ∀ e' ∈ es, get (step s e) (key e') = get s (key e') := fun _ =>
      get_step_of_nodup hother h
    rw [along_cons, hP, ih (List.nodup_cons.mp h).2, List.forall_mem_cons]
    refine and_congr_right fun _ => forall₂_congr fun e' he' => ?_
    rw [hkeep e' he']

/-- A log of what the steps find. -/
theorem final_log {log : σ → List τ} {g : ε → υ → τ}
    (hlog : ∀ s e, log (step s e) = log s ++ [g e (get s (key e))]) (h : (es.map key).Nodup) :
    log (final step s es) = log s ++ es.map fun e => g e (get s (key e)) := by
  induction es generalizing s with
  | nil => simp
  | cons e es ih =>
    have hkeep : es.map (fun e' => g e' (get (step s e) (key e'))) =
        es.map fun e' => g e' (get s (key e')) :=
      List.map_congr_left fun e' he' => by rw [get_step_of_nodup hother h he']
    rw [final_cons, ih (List.nodup_cons.mp h).2, hlog, hkeep, List.append_assoc]
    rfl

include hself

theorem final_own (h : (es.map key).Nodup) {e : ε} (he : e ∈ es) :
    get (final step s es) (key e) = f e (get s (key e)) := by
  induction es generalizing s with
  | nil => cases he
  | cons e' es ih =>
    rcases List.mem_cons.mp he with rfl | he
    · rw [final_cons, final_of_not_mem hother (List.nodup_cons.mp h).1, hself]
    · rw [final_cons, ih (List.nodup_cons.mp h).2 he, get_step_of_nodup hother h he]

end own

/-- A property of the accumulator that a round keeps exactly when the round's element allows it. -/
theorem foldl_iff {p : σ → Prop} {q : ε → Prop} (h : ∀ s e, p (step s e) ↔ p s ∧ q e) (s : σ)
    (es : List ε) : p (es.foldl step s) ↔ p s ∧ ∀ e ∈ es, q e := by
  induction es generalizing s with
  | nil => simp
  | cons e es ih => rw [List.foldl_cons, ih, h, List.forall_mem_cons, and_assoc]

/-! ### Runs that may stop

A part of such a run gives `Except`: the error is the state in which everything stops. -/

section
universe u
variable {α β : Type u} {I : α → Prop} {J : β → Prop} {A : ε → Prop}

/-- `I` holds where the run goes on, and `A` where it has stopped. -/
def Ends (I : α → Prop) (A : ε → Prop) : Except ε α → Prop
  | .ok a => I a
  | .error e => A e

@[simp] theorem ends_ok {a : α} : Ends I A (.ok a : Except ε α) ↔ I a := Iff.rfl

@[simp] theorem ends_error {e : ε} : Ends I A (.error e : Except ε α) ↔ A e := Iff.rfl

theorem Ends.bind {x : Except ε α} {f : α → Except ε β} (hx : Ends I A x)
    (hf : ∀ a, I a → Ends J A (f a)) : Ends J A (x >>= f) := by
  cases x with
  | error e => exact hx
  | ok a => exact hf a hx

theorem Ends.imp {I' : α → Prop} {A' : ε → Prop} {x : Except ε α} (hx : Ends I A x)
    (hI : ∀ a, I a → I' a) (hA : ∀ e, A e → A' e) : Ends I' A' x := by
  cases x with
  | error e => exact hA e hx
  | ok a => exact hI a hx

theorem Ends.foldlM {γ : Type*} {f : α → γ → Except ε α} (cs : List γ)
    (h : ∀ a, ∀ c ∈ cs, I a → Ends I A (f a c)) {a : α} (ha : I a) : Ends I A (cs.foldlM f a) := by
  induction cs generalizing a with
  | nil => exact ha
  | cons c cs ih =>
    rw [List.foldlM_cons]
    have hcs : ∀ a, ∀ c ∈ cs, I a → Ends I A (f a c) :=
      fun a c' hc' => h a c' (List.mem_cons_of_mem _ hc')
    exact (h a c List.mem_cons_self ha).bind fun a' ha' => ih hcs ha'

/-- The run goes on, with `I`, exactly when `p` holds. -/
def GoesOnIff (p : Prop) (I : α → Prop) : Except ε α → Prop
  | .ok a => p ∧ I a
  | .error _ => ¬ p

@[simp] theorem goesOnIff_ok {p : Prop} {a : α} :
    GoesOnIff p I (.ok a : Except ε α) ↔ p ∧ I a := Iff.rfl

@[simp] theorem goesOnIff_error {p : Prop} {e : ε} :
    GoesOnIff p I (.error e : Except ε α) ↔ ¬ p := Iff.rfl

theorem GoesOnIff.congr {p q : Prop} {x : Except ε α} (hx : GoesOnIff p I x) (h : p ↔ q) :
    GoesOnIff q I x := by
  rwa [← propext h]

theorem GoesOnIff.bind {K : β → Prop} {p q : Prop} {x : Except ε α} {f : α → Except ε β}
    (hx : GoesOnIff p I x) (hf : ∀ a, I a → GoesOnIff q K (f a)) :
    GoesOnIff (p ∧ q) K (x >>= f) := by
  cases x with
  | error e => exact fun h => hx h.1
  | ok a =>
    refine (hf a hx.2).congr ?_
    exact ⟨fun h => ⟨hx.1, h⟩, fun h => h.2⟩

end

/-- A split of a list that has grown by one is at the new element or was there before. -/
theorem eq_or_exists_of_concat {es pre post : List ε} {e a : ε} (h : es ++ [e] = pre ++ a :: post) :
    (es = pre ∧ e = a) ∨ ∃ post', es = pre ++ a :: post' := by
  rcases List.eq_nil_or_concat post with rfl | ⟨post, w, rfl⟩
  · obtain ⟨hpre, hw⟩ := List.append_inj' h rfl
    exact .inl ⟨hpre, List.head_eq_of_cons_eq hw⟩
  · rw [List.concat_eq_append, ← List.cons_append, ← List.append_assoc] at h
    exact .inr ⟨post, (List.append_inj' h rfl).1⟩

/-- The rounds of a loop, each with its own condition, which may look at the rounds before. -/
theorem GoesOnIff.foldlM {α : Type*} {γ : Type*} {I : List γ → α → Prop} {q : List γ → γ → Prop}
    {f : α → γ → Except ε α} (es : List γ) {a : α}
    (h : ∀ pre e post a, es = pre ++ e :: post → I pre a →
      GoesOnIff (q pre e) (I (pre ++ [e])) (f a e)) (ha : I [] a) :
    GoesOnIff (∀ pre e post, es = pre ++ e :: post → q pre e) (I es) (es.foldlM f a) := by
  induction es using List.reverseRecOn with
  | nil => exact ⟨fun pre e post he => absurd he.symm (by simp), ha⟩
  | append_singleton es e ih =>
    have hes := ih fun pre e' post a he => h pre e' (post ++ [e]) a (by rw [he]; simp)
    have hlast : ∀ b, I es b → GoesOnIff (q es e) (I (es ++ [e])) ([e].foldlM f b) := by
      intro b hb
      rw [List.foldlM_cons]
      exact (bind_pure (f b e)).symm ▸ h es e [] b rfl hb
    rw [List.foldlM_append]
    refine (hes.bind hlast).congr ⟨fun hall pre e' post he => ?_, fun hall => ?_⟩
    · rcases eq_or_exists_of_concat he with ⟨rfl, rfl⟩ | ⟨post', hes'⟩
      · exact hall.2
      · exact hall.1 pre e' post' hes'
    · exact ⟨fun pre e' post he => hall pre e' (post ++ [e]) (by rw [he]; simp), hall es e [] rfl⟩

end Dir842.Run
