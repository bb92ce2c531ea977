import Mathlib.Data.List.Basic

/-!
# Programs that may exit early

What holds at the end of a program, and what holds of the status it exits with
where it does not get there. The rules follow the composition of programs.
-/
namespace Libevl.EarlyExit

universe u

variable {σ τ : Type u} {α ε : Type*} {r : Except ε σ} {P P' : σ → Prop} {Q : τ → Prop} {E E' : ε → Prop}

/-- The program ends in `P` or exits in `E`. -/
def Ends (r : Except ε σ) (P : σ → Prop) (E : ε → Prop) : Prop :=
  match r with
  | .ok s => P s
  | .error e => E e

theorem Ends.mono (h : Ends r P E) (hP : ∀ s, P s → P' s) (hE : ∀ e, E e → E' e) :
    Ends r P' E' := by
  cases r with
  | ok s => exact hP s h
  | error e => exact hE e h

/-- The rule of sequences. -/
theorem Ends.bind {f : σ → Except ε τ} (h : Ends r P E) (hf : ∀ s, P s → Ends (f s) Q E) :
    Ends (r >>= f) Q E := by
  cases r with
  | ok s => exact hf s h
  | error e => exact h

/-- The rule of loops over a list: the invariant speaks of the elements to come. -/
theorem Ends.foldlM {f : σ → α → Except ε σ} {I : List α → σ → Prop}
    (hstep : ∀ a as s, I (a :: as) s → Ends (f s a) (I as) E) {as : List α} {s : σ}
    (h : I as s) : Ends (as.foldlM f s) (I []) E := by
  induction as generalizing s with
  | nil => exact h
  | cons a as ih =>
    rw [List.foldlM_cons]
    exact Ends.bind (hstep a as s h) fun s' hs' => ih hs'

/-- Where a status decides between the two, the program exits exactly with it. -/
theorem Ends.error_iff {e : ε} {p : Prop} (h : Ends r (fun _ => ¬ p) fun e' => e' = e ∧ p) :
    r = .error e ↔ p := by
  cases r with
  | ok s => exact ⟨nofun, fun hp => absurd hp h⟩
  | error e' => exact ⟨fun _ => h.2, fun _ => by rw [h.1]⟩

end Libevl.EarlyExit
