import Mathlib.Data.List.Infix
import Mathlib.Order.Basic

/-!
# Trees of files

A tree is what is found at each path. Where a removal or a copy was stopped, entries are missing
and files are cut short: `s ≤ t` says that `s` is what can be left of `t` then.
-/

namespace FileTree

abbrev Path := List String

inductive Node
  | dir
  | link (target : String)
  | file (content : List UInt8)
deriving DecidableEq

namespace Node

/-- A file may be cut short. -/
def Le : Node → Node → Prop
  | .file content, .file content' => content <+: content'
  | n, n' => n = n'

instance : PartialOrder Node where
  le := Le
  le_refl n := by
    cases n with
    | file content => exact List.prefix_rfl
    | _ => rfl
  le_trans n n' n'' h h' := by
    cases n with
    | file content =>
      cases n' with
      | file content' =>
        cases n'' with
        | file content'' => exact List.IsPrefix.trans h h'
        | _ => cases h'
      | _ => cases h
    | _ => exact Eq.trans h (by cases h; exact h')
  le_antisymm n n' h h' := by
    cases n with
    | file content =>
      cases n' with
      | file content' =>
        exact congrArg file (List.IsPrefix.eq_of_length_le h (List.IsPrefix.length_le h'))
      | _ => cases h
    | _ => exact h

def cut (bytes : Nat) : Node → Node
  | .file content => .file (content.take bytes)
  | n => n

theorem cut_le (bytes : Nat) (n : Node) : n.cut bytes ≤ n := by
  cases n with
  | file content => exact List.take_prefix bytes content
  | _ => exact le_rfl

end Node

def Tree := Path → Option Node

namespace Tree

instance : PartialOrder Tree where
  le s t := ∀ p, ∀ n ∈ s p, ∃ n' ∈ t p, n ≤ n'
  le_refl t p n hn := ⟨n, hn, le_rfl⟩
  le_trans s t u hst htu p n hn := by
    obtain ⟨n', hn', hle⟩ := hst p n hn
    obtain ⟨n'', hn'', hle'⟩ := htu p n' hn'
    exact ⟨n'', hn'', hle.trans hle'⟩
  le_antisymm s t hst hts := by
    funext p
    rcases hs : s p with _ | n
    · rcases ht : t p with _ | n'
      · rfl
      · obtain ⟨n, hn, -⟩ := hts p n' ht
        exact absurd (hs.symm.trans hn) (Option.some_ne_none n).symm
    · obtain ⟨n', hn', hle⟩ := hst p n hs
      obtain ⟨n'', hn'', hle'⟩ := hts p n' hn'
      obtain rfl := Option.some.inj (hs.symm.trans hn'')
      rw [hle.antisymm hle', hn']

/-- The entries at the paths `gone` are removed. -/
def remove (t : Tree) (gone : Path → Bool) : Tree := fun p => if gone p then none else t p

theorem remove_le (t : Tree) (gone : Path → Bool) : t.remove gone ≤ t := by
  intro p n hn
  unfold remove at hn
  split at hn
  · cases hn
  · exact ⟨n, hn, le_rfl⟩

theorem remove_eq_iff {t : Tree} {gone : Path → Bool} :
    t.remove gone = t ↔ ∀ p, gone p = true → t p = none := by
  constructor
  · intro h p hp
    have hp' := congrFun h p
    rwa [remove, if_pos hp, eq_comm] at hp'
  · intro h
    funext p
    unfold remove
    split
    · rename_i hp
      exact (h p hp).symm
    · rfl

/-- How far the copy of an entry has come. -/
inductive Progress
  | missing
  | cut (bytes : Nat)
  | done

def copy (t : Tree) (progress : Path → Progress) : Tree := fun p =>
  match progress p with
  | .missing => none
  | .cut bytes => (t p).map (Node.cut bytes)
  | .done => t p

theorem copy_le (t : Tree) (progress : Path → Progress) : t.copy progress ≤ t := by
  intro p n hn
  unfold copy at hn
  split at hn
  · cases hn
  · rename_i bytes _
    obtain ⟨n', hn', rfl⟩ := Option.map_eq_some_iff.mp hn
    exact ⟨n', hn', n'.cut_le bytes⟩
  · exact ⟨n, hn, le_rfl⟩

end Tree

theorem Node.eq_dir_of_le {n : Node} (h : .dir ≤ n) : n = .dir := Eq.symm h

theorem Node.eq_link_of_le {n : Node} {target : String} (h : .link target ≤ n) :
    n = .link target := Eq.symm h

theorem Node.exists_file_of_le {n : Node} {content : List UInt8} (h : .file content ≤ n) :
    ∃ content', n = .file content' := by
  cases n with
  | file content' => exact ⟨content', rfl⟩
  | _ => cases h

/-! ### Where a path leads -/

/-- How one gets from a place to others. -/
structure Places (L : Type*) where
  root : L
  child : L → String → L
  parent : L → L

section walk
variable {L : Type*} (places : Places L)

/-- Where a path starts that is written in a directory, cut at the slashes. -/
def Places.origin (here : L) (xs : Path) : L :=
  if xs.head? = some "" ∧ xs.tail ≠ [] then places.root else here

variable (look : L → Option Node) (nofollow : Bool)

/-- A path is followed up to the first link on it, or to the end. -/
def walkWith (follow : L → Path → Option L) : L → Path → Option L
  | l, [] => some l
  | l, x :: xs =>
    if look l ≠ some .dir then none
    else if x = "" ∨ x = "." then walkWith follow l xs
    else if x = ".." then walkWith follow (places.parent l) xs
    else
      match look (places.child l x) with
      | none => none
      | some (.link target) =>
        if nofollow = true ∧ xs = [] then some (places.child l x)
        else
          let ys := target.splitOn "/"
          follow (places.origin l ys) (ys ++ xs)
      | some _ => walkWith follow (places.child l x) xs

/-- A path with at most so many links on it. -/
def walk : ℕ → L → Path → Option L
  | 0 => walkWith places look nofollow fun _ _ => none
  | n + 1 => walkWith places look nofollow (walk n)

variable {places nofollow} {look look' : L → Option Node}

/-- Where more is there, the path leads to the same place. -/
theorem walkWith_mono (hlook : ∀ l, ∀ n ∈ look l, ∃ n' ∈ look' l, n ≤ n')
    {follow follow' : L → Path → Option L}
    (hfollow : ∀ l xs, ∀ l' ∈ follow l xs, l' ∈ follow' l xs) (l : L) (xs : Path) :
    ∀ l' ∈ walkWith places look nofollow follow l xs,
      l' ∈ walkWith places look' nofollow follow' l xs := by
  induction xs generalizing l with
  | nil => exact fun _ h => h
  | cons x xs ih =>
    intro l' h
    unfold walkWith at h ⊢
    by_cases hdir : look l = some .dir
    · obtain ⟨n', hn', hle⟩ := hlook l .dir hdir
      obtain rfl := Node.eq_dir_of_le hle
      rw [if_neg (not_not_intro hdir)] at h
      rw [if_neg (not_not_intro (Option.mem_def.mp hn'))]
      split at h
      · rename_i hdot
        rw [if_pos hdot]
        exact ih l l' h
      · rename_i hdot
        rw [if_neg hdot]
        split at h
        · rename_i hup
          rw [if_pos hup]
          exact ih _ l' h
        · rename_i hup
          rw [if_neg hup]
          cases hx : look (places.child l x) with
          | none =>
            rw [hx] at h
            cases h
          | some n =>
            obtain ⟨n', hn', hle⟩ := hlook _ n hx
            rw [hx] at h
            rw [Option.mem_def.mp hn']
            cases n with
            | dir =>
              obtain rfl := Node.eq_dir_of_le hle
              exact ih _ l' h
            | file content =>
              obtain ⟨content', rfl⟩ := Node.exists_file_of_le hle
              exact ih _ l' h
            | link target =>
              obtain rfl := Node.eq_link_of_le hle
              dsimp only at h ⊢
              split at h
              · rename_i hlast
                rw [if_pos hlast]
                exact h
              · rename_i hlast
                rw [if_neg hlast]
                exact hfollow _ _ l' h
    · rw [if_pos hdir] at h
      cases h

theorem walk_mono (hlook : ∀ l, ∀ n ∈ look l, ∃ n' ∈ look' l, n ≤ n') (n : ℕ) (l : L) (xs : Path) :
    ∀ l' ∈ walk places look nofollow n l xs, l' ∈ walk places look' nofollow n l xs := by
  induction n generalizing l xs with
  | zero => exact walkWith_mono hlook (fun _ _ _ h => h) l xs
  | succ n ih => exact walkWith_mono hlook (fun l xs => ih l xs) l xs

end walk

end FileTree
