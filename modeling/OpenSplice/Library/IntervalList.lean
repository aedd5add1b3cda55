import OpenSplice.Library.KeyedList

/-!
# Lists of separated intervals

A set of elements of a linear order, kept as a list of half-open intervals `[lo a, hi a)` in
increasing order, no two of them overlapping or touching. `Separated` is that condition, `Covers`
the set the list stands for. The elements may carry anything besides their bounds.

An update replaces a contiguous segment by one interval that keeps its distance from either side:
the list stays separated (`Separated.replace`), and the set changes by what the segment and the
interval cover (`covers_replace`).
-/

set_option autoImplicit false

namespace OpenSplice.Library.IntervalList

open List

variable {α κ : Type*} [LinearOrder κ] (lo hi : α → κ) {l pre post : List α}

def Separated (l : List α) : Prop := l.Pairwise fun a b ↦ hi a < lo b

/-- The number `x` lies in one of the intervals. -/
def Covers (l : List α) (x : κ) : Prop := ∃ a ∈ l, lo a ≤ x ∧ x < hi a

variable {lo hi} {x : κ} (mid : List α) {a c : α}

@[simp] lemma covers_nil : ¬ Covers lo hi ([] : List α) x := by
  simp [Covers]

@[simp] lemma covers_cons : Covers lo hi (a :: l) x ↔ (lo a ≤ x ∧ x < hi a) ∨ Covers lo hi l x := by
  simp [Covers]

@[simp] lemma covers_append {l1 l2 : List α} :
    Covers lo hi (l1 ++ l2) x ↔ Covers lo hi l1 x ∨ Covers lo hi l2 x := by
  simp only [Covers, mem_append, or_and_right, exists_or]

lemma separated_append {l1 l2 : List α} : Separated lo hi (l1 ++ l2) ↔
      Separated lo hi l1 ∧ Separated lo hi l2 ∧ ∀ a ∈ l1, ∀ b ∈ l2, hi a < lo b :=
  pairwise_append

lemma separated_cons : Separated lo hi (a :: l) ↔ (∀ b ∈ l, hi a < lo b) ∧ Separated lo hi l :=
  pairwise_cons

/-- Intervals that are not inverted are ordered by their lower bounds when they are separated. -/
lemma Separated.ordered (h : Separated lo hi l) (hle : ∀ a ∈ l, lo a ≤ hi a) :
    KeyedList.Ordered lo l :=
  List.Pairwise.imp_of_mem (fun ha _ hab ↦ lt_of_le_of_lt (hle _ ha) hab) h

lemma Separated.replace (h : Separated lo hi (pre ++ (mid ++ post)))
    (hpre : ∀ a ∈ pre, hi a < lo c) (hpost : ∀ b ∈ post, hi c < lo b) :
    Separated lo hi (pre ++ c :: post) := by
  obtain ⟨hsepPre, hsepRest, hcross⟩ := separated_append.mp h
  obtain ⟨-, hsepPost, -⟩ := separated_append.mp hsepRest
  refine separated_append.mpr ⟨hsepPre, separated_cons.mpr ⟨hpost, hsepPost⟩, ?_⟩
  intro a ha b hb
  rcases mem_cons.mp hb with rfl | hb
  · exact hpre a ha
  · exact hcross a ha b (mem_append_right mid hb)

lemma covers_replace {P : Prop} (hc : lo c ≤ x ∧ x < hi c ↔ Covers lo hi mid x ∨ P) :
    Covers lo hi (pre ++ c :: post) x ↔ Covers lo hi (pre ++ (mid ++ post)) x ∨ P := by
  simp
  tauto

end OpenSplice.Library.IntervalList
