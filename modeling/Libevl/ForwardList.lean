import Mathlib.Data.List.Basic
import Mathlib.Logic.Function.Basic

/-!
# Singly linked lists

A pointer leads to a list of nodes when following the links from it visits them
in turn and ends at no node. Only the links of these nodes matter.
-/
namespace Libevl.ForwardList

variable {α : Type*}

/-- The nodes on the way from a pointer. -/
def Path (next : α → Option α) : Option α → List α → Prop
  | p, [] => p = none
  | p, a :: l => p = some a ∧ Path next (next a) l

/-- A traversal of at most so many nodes. -/
def walk (next : α → Option α) : ℕ → Option α → List α
  | 0, _ => []
  | _ + 1, none => []
  | n + 1, some a => a :: walk next n (next a)

variable {next next' : α → Option α} {p : Option α} {A l : List α} {a b : α}

theorem walk_of_path {n : ℕ} (h : Path next p l) (hn : l.length ≤ n) : walk next n p = l := by
  induction l generalizing p n with
  | nil =>
    rw [show p = none from h]
    cases n <;> rfl
  | cons a l ih =>
    obtain ⟨rfl, hl⟩ := h
    cases n with
    | zero => exact absurd hn (Nat.not_succ_le_zero _)
    | succ n => rw [walk, ih hl (Nat.le_of_succ_le_succ hn)]

theorem Path.congr (h : Path next p l) (hl : ∀ x ∈ l, next' x = next x) : Path next' p l := by
  induction l generalizing p with
  | nil => exact h
  | cons a l ih =>
    obtain ⟨hp, htail⟩ := h
    refine ⟨hp, ?_⟩
    rw [hl a List.mem_cons_self]
    exact ih htail fun x hx => hl x (List.mem_cons_of_mem a hx)

/-- A new node behind the last one. -/
theorem Path.concat (h : Path next p (A ++ [a])) (hA : ∀ x ∈ A, next' x = next x)
    (ha : next' a = some b) (hb : next' b = none) : Path next' p (A ++ [a, b]) := by
  induction A generalizing p with
  | nil => exact ⟨h.1, ha, hb⟩
  | cons c A ih =>
    obtain ⟨hp, htail⟩ := h
    refine ⟨hp, ?_⟩
    rw [hA c List.mem_cons_self]
    exact ih htail fun x hx => hA x (List.mem_cons_of_mem c hx)

theorem Path.suffix (h : Path next p (A ++ a :: l)) : Path next (some a) (a :: l) := by
  induction A generalizing p with
  | nil =>
    obtain ⟨rfl, hl⟩ := h
    exact ⟨rfl, hl⟩
  | cons b A ih => exact ih h.2

/-- A pointer leads to one list only. -/
theorem Path.unique {l' : List α} (h : Path next p l) (h' : Path next p l') : l = l' := by
  induction l generalizing p l' with
  | nil =>
    cases l' with
    | nil => rfl
    | cons b l' => exact absurd (h.symm.trans h'.1) (Option.some_ne_none b).symm
  | cons a l ih =>
    cases l' with
    | nil => exact absurd (h.1.symm.trans h') (Option.some_ne_none a)
    | cons b l' =>
      obtain ⟨rfl, hl⟩ := h
      obtain ⟨hab, hl'⟩ := h'
      cases hab
      rw [ih hl hl']

/-- A way that ends never comes back to a node. -/
theorem Path.nodup (h : Path next p l) : l.Nodup := by
  induction l generalizing p with
  | nil => exact List.nodup_nil
  | cons a l ih =>
    refine List.nodup_cons.mpr ⟨fun ha => ?_, ih h.2⟩
    obtain ⟨A, B, rfl⟩ := List.append_of_mem ha
    have hwhole : Path next (some a) (a :: (A ++ a :: B)) := ⟨rfl, h.2⟩
    have hsame := hwhole.unique (Path.suffix (A := a :: A) h)
    have := congrArg List.length hsame
    simp at this
    omega

/-- The first node on the way which passes a test; nothing where the steps do not suffice. -/
def search (next : α → Option α) (test : α → Bool) : ℕ → Option α → Option (Option α)
  | _, none => some none
  | 0, some _ => none
  | n + 1, some a => if test a then some (some a) else search next test n (next a)

theorem search_of_path {test : α → Bool} {n : ℕ} (h : Path next p l) (hn : l.length ≤ n) :
    search next test n p = some (l.find? test) := by
  induction l generalizing p n with
  | nil =>
    rw [show p = none from h]
    cases n <;> rfl
  | cons a l ih =>
    obtain ⟨rfl, hl⟩ := h
    cases n with
    | zero => exact absurd hn (Nat.not_succ_le_zero _)
    | succ n =>
      cases ht : test a with
      | true => simp [search, ht]
      | false => simp [search, ht, ih hl (Nat.le_of_succ_le_succ hn)]

section Rebuild

variable [DecidableEq α]

/-- Nodes are linked behind each other in the order of a list, the first one to the head.
`last` is the node whose link comes next, if it is not the head. -/
def relink (next : α → Option α) (head last : Option α) : List α → (α → Option α) × Option α
  | [] => (next, head)
  | a :: l =>
    match last with
    | none => relink (Function.update next a none) (some a) (some a) l
    | some b => relink (Function.update (Function.update next b (some a)) a none) head (some a) l

/-- The nodes linked so far, and then the others. -/
theorem relink_path {P Q : List α} (hnd : (P ++ Q).Nodup) (h : Path next p P) :
    Path (relink next p P.getLast? Q).1 (relink next p P.getLast? Q).2 (P ++ Q) := by
  induction Q generalizing P next p with
  | nil => simpa [relink] using h
  | cons a Q ih =>
    rcases List.eq_nil_or_concat P with rfl | ⟨A, b, rfl⟩
    · have hone : Path (Function.update next a none) (some a) [a] :=
        ⟨rfl, Function.update_self ..⟩
      exact ih (P := [a]) hnd hone
    · have hnd' : (A ++ b :: a :: Q).Nodup := by simpa using hnd
      obtain ⟨-, hbQ, hAQ⟩ := List.nodup_append.mp hnd'
      have hba : b ≠ a := fun hba => (List.nodup_cons.mp hbQ).1 (by simp [hba])
      have hlong : Path (Function.update (Function.update next b (some a)) a none) p
          (A ++ [b, a]) := by
        rw [List.concat_eq_append] at h
        apply h.concat
        · intro x hx
          have hxa : x ≠ a := hAQ x hx a (by simp)
          have hxb : x ≠ b := hAQ x hx b (by simp)
          rw [Function.update_of_ne hxa, Function.update_of_ne hxb]
        · rw [Function.update_of_ne hba, Function.update_self]
        · exact Function.update_self ..
      have hrest := ih (P := A ++ [b, a]) (by simpa using hnd) hlong
      have hlast : (A ++ [b, a]).getLast? = some a := by simp
      rw [hlast] at hrest
      simpa [relink] using hrest

end Rebuild

end Libevl.ForwardList
