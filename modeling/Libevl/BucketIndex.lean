import Libevl.ForwardList
import Mathlib.Data.List.Nodup

/-!
# Indexes by bucket

Every entry belongs to the bucket of its key, and a search looks only at the
entries of one bucket. These are chained in any order, or follow each other in a
table which is grouped by buckets. As long as a test accepts entries of the
bucket alone, such a search agrees with one over all entries.
-/
namespace Libevl.BucketIndex
open ForwardList

variable {β : Type*} [DecidableEq β] {f : ℕ → β} {lo hi : ℕ} {b : β} {test : ℕ → Bool}

/-- From `lo` up to `hi`, the entries of one bucket stand next to each other. -/
def Grouped (f : ℕ → β) (lo hi : ℕ) : Prop :=
  ∀ i j k, lo ≤ i → i ≤ j → j ≤ k → k < hi → f i = f k → f j = f i

/-- The entries of one bucket. -/
def members (f : ℕ → β) (lo hi : ℕ) (b : β) : List ℕ :=
  (List.range' lo (hi - lo)).filter (f · = b)

theorem mem_members {i : ℕ} : i ∈ members f lo hi b ↔ (lo ≤ i ∧ i < hi) ∧ f i = b := by
  simp only [members, List.mem_filter, List.mem_range'_1, decide_eq_true_eq]
  constructor
  · rintro ⟨⟨h₁, h₂⟩, h⟩
    exact ⟨⟨h₁, by omega⟩, h⟩
  · rintro ⟨⟨h₁, h₂⟩, h⟩
    exact ⟨⟨h₁, by omega⟩, h⟩

theorem length_members_le : (members f lo hi b).length ≤ hi - lo := by
  simpa [members] using
    List.length_filter_le (fun i => decide (f i = b)) (List.range' lo (hi - lo))

theorem members_cons (h : lo < hi) (hb : f lo = b) :
    members f lo hi b = lo :: members f (lo + 1) hi b := by
  obtain ⟨n, hn⟩ : ∃ n, hi - lo = n + 1 := ⟨hi - lo - 1, by omega⟩
  have hn' : hi - (lo + 1) = n := by omega
  simp [members, hn, hn', List.range'_succ, hb]

theorem members_skip (h : lo < hi) (hb : f lo ≠ b) :
    members f lo hi b = members f (lo + 1) hi b := by
  obtain ⟨n, hn⟩ : ∃ n, hi - lo = n + 1 := ⟨hi - lo - 1, by omega⟩
  have hn' : hi - (lo + 1) = n := by omega
  simp [members, hn, hn', List.range'_succ, hb]

theorem members_eq_nil (h : ∀ i, lo ≤ i → i < hi → f i ≠ b) : members f lo hi b = [] :=
  List.eq_nil_iff_forall_not_mem.mpr fun i hmem =>
    have ⟨⟨h₁, h₂⟩, hf⟩ := mem_members.mp hmem
    h i h₁ h₂ hf

/-- Past the end of a group, its bucket has no further entry. -/
theorem Grouped.members_eq_nil (hg : Grouped f lo hi) (h : f (lo + 1) ≠ f lo) :
    members f (lo + 1) hi (f lo) = [] :=
  BucketIndex.members_eq_nil fun k hk hhi hf =>
    h (hg lo (lo + 1) k (Nat.le_refl lo) (Nat.le_succ lo) hk hhi hf.symm)

/-- Steps from one entry to the next while the bucket stays the same. -/
theorem Grouped.path_here (hg : Grouped f lo hi) (h : lo < hi) {next : ℕ → Option ℕ}
    (hnext : ∀ i, lo ≤ i → i < hi →
      next i = if i + 1 < hi ∧ f (i + 1) = f i then some (i + 1) else none) :
    Path next (some lo) (members f lo hi (f lo)) := by
  induction hd : hi - lo generalizing lo with
  | zero => omega
  | succ n ih =>
    rw [members_cons h rfl]
    refine ⟨rfl, ?_⟩
    rw [hnext lo (Nat.le_refl lo) h]
    by_cases hend : lo + 1 < hi
    · by_cases hsame : f (lo + 1) = f lo
      · rw [if_pos ⟨hend, hsame⟩, ← hsame]
        exact ih (fun i j k hi => hg i j k (by omega)) hend
          (fun i hi => hnext i (by omega)) (by omega)
      · rw [if_neg fun h => hsame h.2, hg.members_eq_nil hsame]
        rfl
    · rw [if_neg fun h => hend h.1, BucketIndex.members_eq_nil fun i h₁ h₂ => by omega]
      rfl

/-- The head of a bucket's list comes first among the entries. -/
theorem members_from_head {i : ℕ} {l : List ℕ} (h : members f lo hi b = i :: l) :
    members f lo hi b = members f i hi b := by
  induction hd : hi - lo generalizing lo with
  | zero => simp [members, hd] at h
  | succ n ih =>
    by_cases hb : f lo = b
    · rw [members_cons (by omega) hb] at h
      rw [(List.cons.inj h).1]
    · rw [members_skip (by omega) hb] at h ⊢
      exact ih h (by omega)

/-- In a grouped table the entries of a bucket are found from the first one on. -/
theorem Grouped.path (hg : Grouped f lo hi) {next : ℕ → Option ℕ}
    (hnext : ∀ i, lo ≤ i → i < hi →
      next i = if i + 1 < hi ∧ f (i + 1) = f i then some (i + 1) else none) :
    Path next (members f lo hi b).head? (members f lo hi b) := by
  cases hl : members f lo hi b with
  | nil => rfl
  | cons i l =>
    obtain ⟨⟨h₁, h₂⟩, rfl⟩ := mem_members.mp (show i ∈ members f lo hi b by simp [hl])
    rw [← hl, members_from_head hl]
    have hhere : Path next (some i) (members f i hi (f i)) :=
      Grouped.path_here (fun j k n hj => hg j k n (by omega)) h₂ fun j hj => hnext j (by omega)
    rwa [← members_from_head hl, hl] at hhere ⊢

/-- A search of the right bucket is a search of all entries. -/
theorem find?_members (h : ∀ i, test i → f i = b) :
    (members f lo hi b).find? test = (List.range' lo (hi - lo)).find? test := by
  rw [members, List.find?_filter]
  congr 1
  funext i
  cases ht : test i with
  | false => simp
  | true => simp [h i ht]

end Libevl.BucketIndex
