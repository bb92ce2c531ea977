import Mathlib.Data.List.TakeDrop
import Mathlib.Data.List.TakeWhile

/-!
# Texts made of words and marks

A lexeme is a longest word or a single mark, a character that is neither part
of words nor blank. Blanks separate lexemes and are skipped. Two words need a
blank between them, a mark needs none. The relation `Spells` says which texts
spell a list of lexemes, and the reader `lexeme` takes the first one off.
-/
namespace Libevl.Lexing

variable {α : Type*} (isBlank isWord : α → Bool)

/-- The first lexeme of a text and the rest of the text. -/
def lexeme : List α → List α × List α
  | [] => ([], [])
  | c :: text =>
    if isBlank c then lexeme text
    else if isWord c then (c :: text.takeWhile isWord, text.dropWhile isWord)
    else ([c], text)

/-- The text spells the lexemes. -/
inductive Spells : List (List α) → List α → Prop
  | done : Spells [] []
  | blank {ts c text} : isBlank c = true → Spells ts text → Spells ts (c :: text)
  | word {ts c w text} : isBlank c = false → (∀ d ∈ c :: w, isWord d = true) →
      (∀ d ∈ text.head?, isWord d = false) → Spells ts text →
      Spells ((c :: w) :: ts) (c :: w ++ text)
  | mark {ts c text} : isBlank c = false → isWord c = false → Spells ts text →
      Spells ([c] :: ts) (c :: text)

variable {isBlank isWord} {ts : List (List α)} {text w : List α}

theorem takeWhile_of_head {p : α → Bool} (h : ∀ c ∈ text.head?, p c = false) :
    text.takeWhile p = [] := by
  cases text with
  | nil => rfl
  | cons c text => simp [h c rfl]

theorem dropWhile_of_head {p : α → Bool} (h : ∀ c ∈ text.head?, p c = false) :
    text.dropWhile p = text := by
  cases text with
  | nil => rfl
  | cons c text => simp [h c rfl]

theorem head?_dropWhile {p : α → Bool} {c : α} (h : c ∈ (text.dropWhile p).head?) :
    p c = false := by
  have := List.head?_dropWhile_not p text
  rw [Option.mem_def.mp h] at this
  simpa using this

theorem takeWhile_append_of_head {p : α → Bool} (hw : ∀ c ∈ w, p c = true)
    (h : ∀ c ∈ text.head?, p c = false) : (w ++ text).takeWhile p = w := by
  rw [List.takeWhile_append_of_pos hw, takeWhile_of_head h, List.append_nil]

theorem dropWhile_append_of_head {p : α → Bool} (hw : ∀ c ∈ w, p c = true)
    (h : ∀ c ∈ text.head?, p c = false) : (w ++ text).dropWhile p = text := by
  rw [List.dropWhile_append_of_pos hw, dropWhile_of_head h]

/-- The reader takes the first lexeme that is spelled, or nothing at the end. -/
theorem Spells.lexeme (h : Spells isBlank isWord ts text) :
    ∃ rest, lexeme isBlank isWord text = (ts.headD [], rest) ∧
      Spells isBlank isWord ts.tail rest := by
  induction h with
  | done => exact ⟨[], rfl, .done⟩
  | blank hc _ ih =>
    rw [Lexing.lexeme, if_pos hc]
    exact ih
  | @word ts c w text hc hw hstop htext _ =>
    have hw' : ∀ d ∈ w, isWord d = true := fun d hd => hw d (List.mem_cons_of_mem c hd)
    refine ⟨text, ?_, htext⟩
    rw [List.cons_append, Lexing.lexeme, if_neg (by simp [hc]), if_pos (hw c List.mem_cons_self),
      takeWhile_append_of_head hw' hstop, dropWhile_append_of_head hw' hstop]
    rfl
  | @mark ts c text hc hw htext _ =>
    refine ⟨text, ?_, htext⟩
    rw [Lexing.lexeme, if_neg (by simp [hc]), if_neg (by simp [hw])]
    rfl

/-- A text spells the lexeme that the reader takes off it and what the rest spells. -/
theorem Spells.of_lexeme (hlex : (Lexing.lexeme isBlank isWord text).1 = w) (hne : w ≠ [])
    (h : Spells isBlank isWord ts (Lexing.lexeme isBlank isWord text).2) :
    Spells isBlank isWord (w :: ts) text := by
  subst hlex
  induction text with
  | nil => exact absurd rfl hne
  | cons c text ih =>
    rw [Lexing.lexeme] at hne h ⊢
    by_cases hc : isBlank c = true
    · rw [if_pos hc] at hne h ⊢
      exact .blank hc (ih h hne)
    · rw [if_neg hc] at h ⊢
      rw [Bool.not_eq_true] at hc
      by_cases hword : isWord c = true
      · rw [if_pos hword] at h ⊢
        have hall : ∀ d ∈ c :: text.takeWhile isWord, isWord d = true :=
          List.forall_mem_cons.mpr ⟨hword, fun _ hd => List.mem_takeWhile_imp hd⟩
        have hspells := Spells.word hc hall (fun _ hd => head?_dropWhile hd) h
        rwa [List.cons_append, List.takeWhile_append_dropWhile] at hspells
      · rw [if_neg hword] at h ⊢
        rw [Bool.not_eq_true] at hword
        exact .mark hc hword h

end Libevl.Lexing
