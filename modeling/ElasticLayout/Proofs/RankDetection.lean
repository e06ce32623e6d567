import ElasticLayout.Proofs.SharpRank

/-!
# Rank detection

Forward elimination marks the rows that serve as pivots.  In exact arithmetic the marked rows are
linearly independent, whatever the run passes over: elimination is exact on the columns in which a
pivot was found.  Where no column maximum that counts as zero differs from zero, the marked rows
span the others, and their number is the rank.

* `linearIndependent_marked` -- the marked rows are independent;
* `mem_markedSpan` -- the others are combinations of them;
* `rank_detected` -- what rank detection finds;
* `striped`, `rank_detected_striped` -- three multiples of one row, behind a column of zeros.
-/

namespace ElasticLayout.Linear

open Matrix

variable {m n : ℕ} {a : Dense m n ℝ}

/-! ### The marked rows -/

/-- **The marked rows are linearly independent.** -/
theorem linearIndependent_marked (a : Dense m n ℝ) :
    LinearIndependent ℝ fun r : {r // (independenceMask a).get r = true} => a.entry r := by
  refine Fintype.linearIndependent_iff.2 fun c hc i => ?_
  -- Some vector is seen by row `i` as one, and by the other marked rows as zero.
  obtain ⟨w, hw⟩ := exists_of_independentRows a (Pi.single i.val 1)
  have hseen : ∀ r : {r // (independenceMask a).get r = true},
      a.entry r ⬝ᵥ w = if r = i then 1 else 0 := by
    intro r
    have hr : a.entry r ⬝ᵥ w = _ := hw r (mem_independentRows_iff.2 r.property)
    rw [hr, Pi.single_apply]
    exact if_congr Subtype.ext_iff.symm rfl rfl
  calc c i = ∑ r, c r * (a.entry r ⬝ᵥ w) := by simp [hseen]
    _ = (∑ r, c r • a.entry r) ⬝ᵥ w := by simp only [sum_dotProduct, smul_dotProduct, smul_eq_mul]
    _ = 0 := by rw [hc, zero_dotProduct]

/-- The span of the marked rows. -/
def markedSpan (a : Dense m n ℝ) : Submodule ℝ (Fin n → ℝ) :=
  Submodule.span ℝ (a.entry '' {r | (independenceMask a).get r = true})

/-- **Every row is a combination of the marked ones**, if the pivots are sharp.  A functional that
vanishes on the marked rows is a vector that they annihilate. -/
theorem mem_markedSpan (h : SharpReduction a) (r : Fin m) : a.entry r ∈ markedSpan a := by
  by_contra hnot
  obtain ⟨f, hne, hvanish⟩ := Submodule.exists_le_ker_of_notMem hnot
  have hunit : ∀ k : Fin n, (fun j => if k = j then (1 : ℝ) else 0) = Pi.single k 1 := by
    intro k
    funext j
    rw [Pi.single_apply]
    exact if_congr eq_comm rfl rfl
  have hrow : ∀ q, (a.matrix *ᵥ fun k => f (Pi.single k 1)) q = f (a.entry q) := by
    intro q
    rw [Dense.matrix_mulVec, LinearMap.pi_apply_eq_sum_univ f (a.entry q)]
    simp only [smul_eq_mul, hunit]
  have hzero := eq_zero_of_independentRows h (v := fun k => f (Pi.single k 1)) fun q hq => by
    rw [hrow]
    exact hvanish (Submodule.subset_span ⟨q, mem_independentRows_iff.1 hq, rfl⟩)
  refine hne ?_
  rw [← hrow, hzero]
  rfl

/-! ### The rank -/

/-- The marked rows are as many as the pivots. -/
theorem card_marked (a : Dense m n ℝ) :
    Fintype.card {r // (independenceMask a).get r = true} = rank a := by
  have hmarked : (independentRows a).toFinset
      = Finset.univ.filter fun r => (independenceMask a).get r = true := by
    ext r
    simp [mem_independentRows_iff]
  rw [Fintype.card_subtype, ← hmarked, List.toFinset_card_of_nodup nodup_independentRows,
    length_independentRows]

/-- The marked rows span what all rows span, if the pivots are sharp. -/
theorem span_row_eq_markedSpan (h : SharpReduction a) :
    Submodule.span ℝ (Set.range a.matrix.row) = markedSpan a := by
  refine le_antisymm (Submodule.span_le.2 ?_) (Submodule.span_mono ?_)
  · rintro _ ⟨r, rfl⟩
    exact mem_markedSpan h r
  · rintro _ ⟨r, -, rfl⟩
    exact ⟨r, rfl⟩

/-- The number of pivots is the rank, if the pivots are sharp. -/
theorem rank_eq (h : SharpReduction a) : rank a = a.matrix.rank := by
  rw [Matrix.rank_eq_finrank_span_row, span_row_eq_markedSpan h, markedSpan, Set.image_eq_range,
    ← card_marked a]
  exact (finrank_span_eq_card (linearIndependent_marked a)).symm

/-- **What rank detection finds**: as many marked rows as pivots, and no more than there are rows or
columns; they are linearly independent, and where no column maximum that counts as zero differs from
zero, the other rows are combinations of them. -/
theorem rank_detected (a : Dense m n ℝ) :
    rank a = (independenceMask a).toList.count true ∧ rank a ≤ min m n ∧
      LinearIndependent ℝ (fun r : {r // (independenceMask a).get r = true} => a.entry r) ∧
      (SharpReduction a →
        (∀ r, (independenceMask a).get r = false → a.entry r ∈ markedSpan a) ∧
          rank a = a.matrix.rank) := by
  have hrows : rank a ≤ m := length_independentRows a ▸ independentRows_length_le a
  have hcolumns : rank a ≤ n := by
    rw [← card_marked a]
    exact (linearIndependent_marked a).fintype_card_le_finrank.trans_eq (by simp)
  exact ⟨(count_independenceMask a).symm, le_min hrows hcolumns, linearIndependent_marked a,
    fun h => ⟨fun r _ => mem_markedSpan h r, rank_eq h⟩⟩

/-! ### A column of zeros -/

attribute [local instance] atLeastTwo_two

/-- Three multiples of one row, behind a column of zeros. -/
def striped : Dense 3 2 ℝ := #v[#v[0, 2], #v[0, -2], #v[0, 2]]

theorem sharpReduction_striped : SharpReduction striped := by
  have hfirst : ∀ r, striped.entry r 0 = 0 := by
    intro r
    fin_cases r <;> rfl
  have hsecond : ∀ r, 1 / 1000000 ≤ |striped.entry r 1| := by
    intro r
    fin_cases r
    · show _ ≤ |(2 : ℝ)|
      norm_num
    · show _ ≤ |(-2 : ℝ)|
      norm_num
    · show _ ≤ |(2 : ℝ)|
      norm_num
  have hstep : (Reduction.ofDense striped).step 0 = .ofDense striped :=
    Reduction.step_of_zero fun r _ => hfirst r
  show (Reduction.ofDense striped).SharpOver [0, 1]
  refine ⟨fun p _ _ _ => hfirst p, ?_⟩
  rw [hstep]
  exact ⟨fun p _ _ => sharp_of_le (hsecond p), trivial⟩

/-- Of three multiples of one row one is chosen, though the first column has no pivot. -/
theorem rank_detected_striped : SharpReduction striped ∧ rank striped = striped.matrix.rank ∧
    (independenceMask striped).toList.count true = striped.matrix.rank ∧
    ∀ r, (independenceMask striped).get r = false → striped.entry r ∈ markedSpan striped := by
  obtain ⟨hcount, -, -, hsharp⟩ := rank_detected striped
  obtain ⟨hspan, hrank⟩ := hsharp sharpReduction_striped
  exact ⟨sharpReduction_striped, hrank, hcount.symm.trans hrank, hspan⟩

end ElasticLayout.Linear
