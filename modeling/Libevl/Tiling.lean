import Mathlib.Algebra.BigOperators.Group.List.Basic
import Mathlib.Algebra.Ring.Nat
import Mathlib.Data.Finset.Image
import Mathlib.Data.Finset.Card
import Mathlib.Data.List.Nodup
import Mathlib.Data.List.Pairwise
import Mathlib.Data.List.Perm.Basic

/-!
# Tilings of a segment

Tiles are laid one behind the other. Each tile then has a place, places do not
overlap, and every point of the segment lies in exactly one of them. Replacing
some tiles by others of the same length leaves all other places as they are.
-/
namespace Libevl.Tiling

variable {σ : Type*} (len : σ → ℕ)

/-- The length of the segment which the tiles cover. -/
def cover (L : List σ) : ℕ := (L.map len).sum

/-- The tiles with their places, from `p` on. -/
def place : ℕ → List σ → List (ℕ × σ)
  | _, [] => []
  | p, s :: L => (p, s) :: place (p + len s) L

variable {len} {p q x : ℕ} {s : σ} {L A B C : List σ}

@[simp] theorem cover_nil : cover len [] = 0 := rfl
@[simp] theorem cover_cons : cover len (s :: L) = len s + cover len L := by simp [cover]
@[simp] theorem cover_append : cover len (A ++ B) = cover len A + cover len B := by simp [cover]

@[simp] theorem place_nil : place len p [] = [] := rfl
@[simp] theorem place_cons : place len p (s :: L) = (p, s) :: place len (p + len s) L := rfl

@[simp] theorem place_append :
    place len p (A ++ B) = place len p A ++ place len (p + cover len A) B := by
  induction A generalizing p with
  | nil => simp
  | cons a A ih => simp [ih, Nat.add_assoc]

/-- A place is a cut of the list of tiles. -/
theorem mem_place : (q, s) ∈ place len p L ↔ ∃ A B, L = A ++ s :: B ∧ q = p + cover len A := by
  constructor
  · intro h
    induction L generalizing p with
    | nil => simp at h
    | cons a L ih =>
      rcases List.mem_cons.mp h with h | h
      · obtain ⟨rfl, rfl⟩ := Prod.mk.inj h
        exact ⟨[], L, rfl, by simp⟩
      · obtain ⟨A, B, rfl, rfl⟩ := ih h
        exact ⟨a :: A, B, rfl, by simp [Nat.add_assoc]⟩
  · rintro ⟨A, B, rfl, rfl⟩
    simp

theorem mem_of_place (h : (q, s) ∈ place len p L) : s ∈ L := by
  obtain ⟨A, B, rfl, -⟩ := mem_place.mp h
  simp

/-- Every tile lies in the segment. -/
theorem place_bounds (h : (q, s) ∈ place len p L) :
    p ≤ q ∧ q + len s ≤ p + cover len L := by
  obtain ⟨A, B, rfl, rfl⟩ := mem_place.mp h
  simp only [cover_append, cover_cons]
  omega

/-- A tile is no longer than the segment. -/
theorem le_cover_of_mem (h : s ∈ L) : len s ≤ cover len L := by
  obtain ⟨A, B, rfl⟩ := List.append_of_mem h
  simp only [cover_append, cover_cons]
  omega

/-- Tiles do not overlap. -/
theorem place_apart {a b : ℕ × σ} (ha : a ∈ place len p L) (hb : b ∈ place len p L) :
    a = b ∨ a.1 + len a.2 ≤ b.1 ∨ b.1 + len b.2 ≤ a.1 := by
  induction L generalizing p with
  | nil => simp at ha
  | cons s L ih =>
    rcases List.mem_cons.mp ha with rfl | ha <;> rcases List.mem_cons.mp hb with rfl | hb
    · exact .inl rfl
    · exact .inr (.inl (place_bounds hb).1)
    · exact .inr (.inr (place_bounds ha).1)
    · exact ih ha hb

/-- Every point lies in a tile. -/
theorem exists_place (h₁ : p ≤ x) (h₂ : x < p + cover len L) :
    ∃ a ∈ place len p L, a.1 ≤ x ∧ x < a.1 + len a.2 := by
  induction L generalizing p with
  | nil => simp at h₂; omega
  | cons s L ih =>
    by_cases hx : x < p + len s
    · exact ⟨(p, s), List.mem_cons_self, h₁, hx⟩
    · rw [cover_cons] at h₂
      obtain ⟨a, ha, hb⟩ := ih (p := p + len s) (by omega) (by omega)
      exact ⟨a, List.mem_cons_of_mem _ ha, hb⟩

section Apart

/-- No point is in both of two intervals. -/
def Apart (x y : ℤ × ℕ) : Prop := x.1 + x.2 ≤ y.1 ∨ y.1 + y.2 ≤ x.1

theorem Apart.symm {x y : ℤ × ℕ} (h : Apart x y) : Apart y x := Or.symm h

/-- The points of an interval. -/
def points (x : ℤ × ℕ) : Finset ℤ := (Finset.range x.2).image fun k : ℕ => x.1 + k

theorem mem_points {x : ℤ × ℕ} {z : ℤ} : z ∈ points x ↔ x.1 ≤ z ∧ z < x.1 + x.2 := by
  simp only [points, Finset.mem_image, Finset.mem_range]
  constructor
  · rintro ⟨k, hk, rfl⟩
    omega
  · rintro ⟨h₁, h₂⟩
    exact ⟨(z - x.1).toNat, by omega, by omega⟩

theorem card_points (x : ℤ × ℕ) : (points x).card = x.2 := by
  have hinj : Function.Injective fun k : ℕ => x.1 + (k : ℤ) := fun a b h => by
    simp only at h
    omega
  rw [points, Finset.card_image_of_injective _ hinj, Finset.card_range]

/-- The points of some intervals. -/
def region (L : List (ℤ × ℕ)) : Finset ℤ := L.foldr (fun x S => points x ∪ S) ∅

theorem mem_region {L : List (ℤ × ℕ)} {z : ℤ} :
    z ∈ region L ↔ ∃ x ∈ L, x.1 ≤ z ∧ z < x.1 + x.2 := by
  induction L with
  | nil => simp [region]
  | cons x L ih =>
    have hunfold : region (x :: L) = points x ∪ region L := rfl
    rw [hunfold, Finset.mem_union, mem_points, ih]
    simp

theorem card_region {L : List (ℤ × ℕ)} (h : L.Pairwise Apart) :
    (region L).card = (L.map Prod.snd).sum := by
  induction L with
  | nil => rfl
  | cons x L ih =>
    obtain ⟨hx, hL⟩ := List.pairwise_cons.mp h
    have hdisj : Disjoint (points x) (region L) := by
      refine Finset.disjoint_left.mpr fun z hz hz' => ?_
      obtain ⟨y, hy, h₁, h₂⟩ := mem_region.mp hz'
      have hb := mem_points.mp hz
      rcases hx y hy with hxy | hxy <;> omega
    have hunfold : region (x :: L) = points x ∪ region L := rfl
    rw [hunfold, Finset.card_union_of_disjoint hdisj, ih hL, card_points]
    simp

/-- Intervals that do not overlap fit into what contains them all. -/
theorem sum_le_of_apart {L : List (ℤ × ℕ)} (lo : ℤ) (n : ℕ) (h : L.Pairwise Apart)
    (hb : ∀ x ∈ L, lo ≤ x.1 ∧ x.1 + x.2 ≤ lo + n) : (L.map Prod.snd).sum ≤ n := by
  have hsub : region L ⊆ points (lo, n) := by
    intro z hz
    obtain ⟨x, hx, h₁, h₂⟩ := mem_region.mp hz
    obtain ⟨h₃, h₄⟩ := hb x hx
    exact mem_points.mpr ⟨by omega, by omega⟩
  calc
    (L.map Prod.snd).sum = (region L).card := (card_region h).symm
    _ ≤ (points (lo, n)).card := Finset.card_le_card hsub
    _ = n := card_points (lo, n)

end Apart

section Runs

variable {F : ℕ → Prop} {n : ℕ} {is : List (ℕ × ℕ)}

/-- `n` numbers from `p` on are in the set. -/
def Run (F : ℕ → Prop) (p n : ℕ) : Prop := ∀ x, p ≤ x → x < p + n → F x

/-- A run that cannot be made longer on either side. -/
structure MaximalRun (F : ℕ → Prop) (p n : ℕ) : Prop where
  pos : 0 < n
  run : Run F p n
  left : ∀ x, x + 1 = p → ¬ F x
  right : ¬ F (p + n)

/-- The set consists of intervals with gaps between them. -/
structure Covers (F : ℕ → Prop) (is : List (ℕ × ℕ)) : Prop where
  mem : ∀ x, F x ↔ ∃ i ∈ is, i.1 ≤ x ∧ x < i.1 + i.2
  apart : is.Pairwise fun i j => i.1 + i.2 < j.1
  pos : ∀ i ∈ is, 0 < i.2

/-- A number next to an interval is in no other interval. -/
theorem Covers.eq_of_near (h : Covers F is) {i j : ℕ × ℕ} (hi : i ∈ is) (hj : j ∈ is)
    (h₁ : i.1 ≤ x) (h₂ : x ≤ i.1 + i.2) (h₃ : j.1 ≤ x) (h₄ : x ≤ j.1 + j.2) : i = j := by
  by_contra hne
  have hsymm : Std.Symm fun i j : ℕ × ℕ => i.1 + i.2 < j.1 ∨ j.1 + j.2 < i.1 := ⟨fun _ _ => Or.symm⟩
  have hpair : is.Pairwise fun i j => i.1 + i.2 < j.1 ∨ j.1 + j.2 < i.1 := h.apart.imp Or.inl
  have happ := List.Pairwise.forall hpair hi hj hne
  omega

/-- A run does not cross a gap. -/
theorem Covers.run_iff (h : Covers F is) (hn : 0 < n) :
    Run F p n ↔ ∃ i ∈ is, i.1 ≤ p ∧ p + n ≤ i.1 + i.2 := by
  constructor
  · intro hr
    obtain ⟨i, hi, hlo, hhi⟩ := (h.mem p).mp (hr p le_rfl (by omega))
    refine ⟨i, hi, hlo, ?_⟩
    by_contra hlt
    -- the first number behind the interval would be in another one
    obtain ⟨j, hj, hlo', hhi'⟩ := (h.mem (i.1 + i.2)).mp (hr _ (by omega) (by omega))
    obtain rfl := h.eq_of_near hi hj (Nat.le_add_right _ _) le_rfl hlo' hhi'.le
    omega
  · rintro ⟨i, hi, hlo, hhi⟩ x h₁ h₂
    exact (h.mem x).mpr ⟨i, hi, by omega, by omega⟩

theorem Covers.maximal_iff (h : Covers F is) : MaximalRun F p n ↔ (p, n) ∈ is := by
  constructor
  · rintro ⟨hn, hrun, hleft, hright⟩
    obtain ⟨i, hi, hlo, hhi⟩ := (h.run_iff hn).mp hrun
    have hstart : i.1 = p := by
      by_contra hne
      exact hleft (p - 1) (by omega) ((h.mem _).mpr ⟨i, hi, by omega, by omega⟩)
    have hend : i.2 = n := by
      by_contra hne
      exact hright ((h.mem _).mpr ⟨i, hi, by omega, by omega⟩)
    rwa [← hstart, ← hend]
  · intro hi
    refine ⟨h.pos _ hi, (h.run_iff (h.pos _ hi)).mpr ⟨_, hi, le_rfl, le_rfl⟩, fun x hx hF => ?_,
      fun hF => ?_⟩
    · obtain ⟨j, hj, hlo, hhi⟩ := (h.mem x).mp hF
      obtain rfl := h.eq_of_near (x := p) hi hj le_rfl (by simp) (by omega) (by omega)
      simp only at hlo
      omega
    · obtain ⟨j, hj, hlo, hhi⟩ := (h.mem _).mp hF
      obtain rfl := h.eq_of_near hi hj (by simp) le_rfl hlo hhi.le
      simp only at hhi
      omega

end Runs

end Libevl.Tiling
