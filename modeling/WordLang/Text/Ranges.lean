/-! # Sets of characters given by ranges

    A class of characters is written as a list of closed ranges of code
    points, in increasing order. -/

namespace WordLang.Text

/-- Whether a code point lies in one of the ranges.  The ranges increase, so the first one
    that does not end before the code point decides. -/
def inRanges (ranges : List (Nat × Nat)) (code : Nat) : Bool :=
  match ranges with
  | [] => false
  | (low, high) :: rest => if code ≤ high then decide (low ≤ code) else inRanges rest code

/-- Ranges that increase and do not touch: what `inRanges` relies on. -/
def Increasing (ranges : List (Nat × Nat)) : Prop :=
  (∀ r ∈ ranges, r.1 ≤ r.2) ∧ ranges.Pairwise (fun r s => r.2 < s.1)

/-- On increasing ranges the early answer is the right one. -/
theorem inRanges_iff {ranges : List (Nat × Nat)} (h : Increasing ranges) (code : Nat) :
    inRanges ranges code = true ↔ ∃ r ∈ ranges, r.1 ≤ code ∧ code ≤ r.2 := by
  induction ranges with
  | nil => simp [inRanges]
  | cons r rest ih =>
    obtain ⟨low, high⟩ := r
    obtain ⟨hle, hpair⟩ := h
    obtain ⟨hhead, hrest⟩ := List.pairwise_cons.mp hpair
    have ih := ih ⟨fun s hs => hle s (List.mem_cons_of_mem _ hs), hrest⟩
    unfold inRanges
    split
    · next hcode =>
      rw [decide_eq_true_iff]
      refine ⟨fun hlow => ⟨_, List.mem_cons_self, hlow, hcode⟩, ?_⟩
      rintro ⟨s, hs, hlow, hhigh⟩
      rcases List.mem_cons.mp hs with rfl | hs
      · exact hlow
      · have := hhead s hs
        simp only at this; omega
    · next hcode =>
      rw [ih]
      refine ⟨fun ⟨s, hs, h⟩ => ⟨s, List.mem_cons_of_mem _ hs, h⟩, ?_⟩
      rintro ⟨s, hs, hlow, hhigh⟩
      rcases List.mem_cons.mp hs with rfl | hs
      · exact absurd hhigh hcode
      · exact ⟨s, hs, hlow, hhigh⟩

end WordLang.Text
