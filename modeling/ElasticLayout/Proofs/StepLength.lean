import Mathlib
import ElasticLayout.Problem.ActiveSet
import ElasticLayout.Proofs.ExactScalar

/-!
# The length of a step

An iteration goes the largest fraction of its step, up to the whole of it, that violates none of the
inequalities it watches: those outside the working set that the step approaches by the tolerance or
more.  A row that is violated already allows nothing.

* `takeLess`, `foldl_takeLess_mem` -- a scan for the least price, in every arithmetic;
* `foldl_takeLess_cases`, `foldl_takeLess_le` -- what the scan finds;
* `HardRow.excess`, `HardRow.isSatisfied_iff` -- how far a row is from its bound;
* `HardRow.excess_move` -- along a step the excess changes by the slope;
* `Problem.Watches`, `Problem.ratio` -- the watched inequalities, and where the step meets them;
* `Problem.leastRoom`, `Problem.stepLength_eq` -- the scan for the length of a step;
* `Problem.stepLength_nonneg`, `Problem.stepLength_le_one` -- how long a step is;
* `Problem.excess_stepLength` -- no inequality loses more than the tolerance;
* `Problem.stepLength_none_iff`, `Problem.stepLength_blocking` -- whole steps, and blocked ones;
* `Problem.stepLength_greatest` -- the main result.
-/

namespace ElasticLayout

open Linear

/-! ### Scans for the least price -/

section Scans

variable {ι κ : Type}

/-- A scan for the least price takes an entry, under its name, if its price is less than the least
so far; entries without a price are left aside. -/
def takeLess {α : Type} [Scalar α] (price? : ι → Option α) (name : ι → κ) (best : α × Option κ)
    (i : ι) : α × Option κ :=
  match price? i with
  | some price => if price < best.1 then (price, some (name i)) else best
  | none => best

theorem takeLess_cases {α : Type} [Scalar α] (price? : ι → Option α) (name : ι → κ)
    (best : α × Option κ) (i : ι) :
    takeLess price? name best i = best ∨ ∃ price, price? i = some price ∧
      price < best.1 ∧ takeLess price? name best i = (price, some (name i)) := by
  unfold takeLess
  split
  · rename_i price hprice
    split
    · exact .inr ⟨price, hprice, ‹_›, rfl⟩
    · exact .inl rfl
  · exact .inl rfl

/-- However prices compare, the scan keeps what it starts with, or it takes one of its entries with
the price of that entry. -/
theorem foldl_takeLess_mem {α : Type} [Scalar α] (price? : ι → Option α) (name : ι → κ)
    (is : List ι) (best : α × Option κ) :
    is.foldl (takeLess price? name) best = best ∨ ∃ i ∈ is, ∃ price, price? i = some price ∧
      is.foldl (takeLess price? name) best = (price, some (name i)) := by
  induction is generalizing best with
  | nil => exact .inl rfl
  | cons first is ih =>
    rw [List.foldl_cons]
    obtain hkept | ⟨i, hi, price, hprice, htaken⟩ := ih (takeLess price? name best first)
    · rw [hkept]
      exact (takeLess_cases price? name best first).imp_right fun ⟨price, hprice, _, htaken⟩ =>
        ⟨first, List.mem_cons_self, price, hprice, htaken⟩
    · exact .inr ⟨i, List.mem_cons_of_mem _ hi, price, hprice, htaken⟩

theorem takeLess_fst_le {price? : ι → Option ℝ} {price : ℝ} {i : ι} (hprice : price? i = some price)
    (name : ι → κ) (best : ℝ × Option κ) : (takeLess price? name best i).1 ≤ price := by
  unfold takeLess
  rw [hprice]
  dsimp only
  split
  · exact le_rfl
  · exact not_lt.1 ‹_›

/-- The scan keeps what it starts with, or it takes one of its entries for a lower price. -/
theorem foldl_takeLess_cases (price? : ι → Option ℝ) (name : ι → κ) (is : List ι)
    (best : ℝ × Option κ) :
    is.foldl (takeLess price? name) best = best ∨ ∃ i ∈ is, ∃ price, price? i = some price ∧
      price < best.1 ∧ is.foldl (takeLess price? name) best = (price, some (name i)) := by
  induction is generalizing best with
  | nil => exact .inl rfl
  | cons first is ih =>
    rw [List.foldl_cons]
    have hfirst := takeLess_cases price? name best first
    obtain hkept | ⟨i, hi, price, hprice, hless, htaken⟩ := ih (takeLess price? name best first)
    · rw [hkept]
      exact hfirst.imp_right fun ⟨price, hprice, hless, htaken⟩ =>
        ⟨first, List.mem_cons_self, price, hprice, hless, htaken⟩
    · have hle : (takeLess price? name best first).1 ≤ best.1 := by
        obtain hleft | ⟨_, -, hlower, hreplaced⟩ := hfirst
        · rw [hleft]
        · rw [hreplaced]
          exact hlower.le
      exact .inr ⟨i, List.mem_cons_of_mem _ hi, price, hprice, hless.trans_le hle, htaken⟩

theorem foldl_takeLess_le_start (price? : ι → Option ℝ) (name : ι → κ) (is : List ι)
    (best : ℝ × Option κ) : (is.foldl (takeLess price? name) best).1 ≤ best.1 := by
  obtain hkept | ⟨_, -, _, -, hless, htaken⟩ := foldl_takeLess_cases price? name is best
  · rw [hkept]
  · rw [htaken]
    exact hless.le

/-- The scan ends with no more than the price of any of its entries. -/
theorem foldl_takeLess_le {price? : ι → Option ℝ} {is : List ι} {i : ι} (hi : i ∈ is) {price : ℝ}
    (hprice : price? i = some price) (name : ι → κ) (best : ℝ × Option κ) :
    (is.foldl (takeLess price? name) best).1 ≤ price := by
  induction is generalizing best with
  | nil => exact absurd hi List.not_mem_nil
  | cons first is ih =>
    obtain rfl | hi := List.mem_cons.1 hi
    · exact (foldl_takeLess_le_start price? name is _).trans (takeLess_fst_le hprice name best)
    · exact ih hi _

end Scans

/-! ### Distance from the bound -/

theorem dot_zipWith_move (cs : List ℝ) {xs ds : List ℝ} (h : xs.length = ds.length) (a : ℝ) :
    dot cs (List.zipWith (fun x d => x + a * d) xs ds) = dot cs xs + a * dot cs ds := by
  simp only [dot_eq]
  induction cs generalizing xs ds with
  | nil => simp
  | cons c cs ih =>
    cases xs with
    | nil =>
      obtain rfl := List.length_eq_zero_iff.1 h.symm
      simp
    | cons x xs =>
      cases ds with
      | nil => exact absurd h (by simp)
      | cons d ds =>
        simp only [List.zipWith_cons_cons, List.sum_cons]
        rw [ih (Nat.succ.inj h)]
        ring

namespace HardRow

/-- How far a row is above its lower bound. -/
noncomputable def excess (row : HardRow ℝ) (x : List ℝ) : ℝ := row.signedValue x - row.signedRhs

theorem isSatisfied_iff (row : HardRow ℝ) (x : List ℝ) :
    row.isSatisfied x Scalar.tolerance = true ↔
      if row.isEquality then |row.excess x| < 1 / 1000000 else -(1 / 1000000) < row.excess x := by
  unfold isSatisfied isEquality excess
  rw [Scalar.tolerance_eq]
  cases row.relation with
  | eq => exact decide_eq_true_iff
  | le => exact decide_eq_true_iff
  | ge => exact decide_eq_true_iff

/-- More excess keeps an inequality. -/
theorem isSatisfied_of_le {row : HardRow ℝ} (hrow : row.isEquality = false) {x y : List ℝ}
    (hx : row.isSatisfied x Scalar.tolerance = true) (h : row.excess x ≤ row.excess y) :
    row.isSatisfied y Scalar.tolerance = true := by
  rw [isSatisfied_iff, hrow] at hx ⊢
  exact lt_of_lt_of_le hx h

theorem isSatisfied_of_eq {row : HardRow ℝ} {x y : List ℝ}
    (hx : row.isSatisfied x Scalar.tolerance = true) (h : row.excess y = row.excess x) :
    row.isSatisfied y Scalar.tolerance = true := by
  rw [isSatisfied_iff] at hx ⊢
  rw [h]
  exact hx

/-- Along a step the excess changes by the slope. -/
theorem excess_move (row : HardRow ℝ) {n : ℕ} (x step : Vector ℝ n) (a : ℝ) :
    row.excess (x.zipWith (fun x d => x + a * d) step).toList
      = row.excess x.toList + a * row.signedValue step.toList := by
  have hlist : (x.zipWith (fun x d => x + a * d) step).toList
      = List.zipWith (fun x d => x + a * d) x.toList step.toList := by
    apply List.ext_getElem
    · simp
    · intro i h₁ h₂
      simp
  unfold excess signedValue value
  rw [hlist, dot_zipWith_move _ (by simp)]
  ring

end HardRow

namespace Problem

variable {p : Problem ℝ} {point step : p.Point} {working : List p.Row} {r : p.Row}

/-! ### Watched inequalities -/

theorem roomFor?_eq_some_iff {row : HardRow ℝ} {x step : List ℝ} {room : ℝ} :
    roomFor? row x step = some room ↔ row.signedValue step ≤ -(1 / 1000000) ∧
      room = (row.signedRhs - row.signedValue x) / row.signedValue step := by
  have hpassed : (0 < row.signedValue step ∨ Scalar.near (row.signedValue step) 0 = true) ↔
      -(1 / 1000000) < row.signedValue step := by
    rw [Scalar.near_iff, sub_zero, abs_lt]
    constructor
    · rintro (hpos | ⟨hlt, -⟩) <;> linarith
    · intro hlt
      obtain hpos | hnonpos := lt_or_ge 0 (row.signedValue step)
      · exact .inl hpos
      · exact .inr ⟨hlt, by linarith⟩
  unfold roomFor?
  dsimp only
  split
  · rename_i h
    exact iff_of_false (by simp) fun hroom => absurd (hpassed.1 h) (not_lt.2 hroom.1)
  · rename_i h
    rw [hpassed, not_lt] at h
    rw [Option.some.injEq, and_iff_right h]
    exact eq_comm

/-- An inequality outside the working set that a step approaches by the tolerance or more. -/
structure Watches (p : Problem ℝ) (step : p.Point) (working : List p.Row) (r : p.Row) : Prop where
  isInequality : (p.row r).isEquality = false
  free : r ∉ working
  approached : (p.row r).signedValue step.toList ≤ -(1 / 1000000)

/-- The fraction of a step after which it meets the bound of a row. -/
noncomputable def ratio (p : Problem ℝ) (point step : p.Point) (r : p.Row) : ℝ :=
  ((p.row r).signedRhs - (p.row r).signedValue point.toList) / (p.row r).signedValue step.toList

/-- Up to its ratio a step does not violate a watched inequality, and beyond that it does. -/
theorem Watches.excess_nonneg_iff (h : p.Watches step working r) {a : ℝ} :
    0 ≤ (p.row r).excess (point.zipWith (fun x d => x + a * d) step).toList ↔
      a ≤ p.ratio point step r := by
  have hslope : (p.row r).signedValue step.toList < 0 := h.approached.trans_lt (by norm_num)
  rw [HardRow.excess_move, ratio, le_div_iff_of_neg hslope]
  unfold HardRow.excess
  constructor <;> intro <;> linarith

/-- At its ratio a watched inequality is tight. -/
theorem Watches.excess_ratio (h : p.Watches step working r) :
    (p.row r).excess (point.zipWith (fun x d => x + p.ratio point step r * d) step).toList = 0 := by
  have hslope : (p.row r).signedValue step.toList ≠ 0 :=
    (h.approached.trans_lt (by norm_num)).ne
  rw [HardRow.excess_move, ratio, div_mul_cancel₀ _ hslope]
  unfold HardRow.excess
  ring

/-- A violated inequality has a negative ratio. -/
theorem Watches.ratio_nonneg_iff (h : p.Watches step working r) :
    0 ≤ p.ratio point step r ↔ 0 ≤ (p.row r).excess point.toList := by
  rw [← h.excess_nonneg_iff, HardRow.excess_move, zero_mul, add_zero]

/-! ### The scan -/

/-- The least room of the inequalities outside the working set and the first of them that has it,
if it is less than one. -/
def leastRoom {α : Type} [Scalar α] (p : Problem α) (point step : p.Point) (working : List p.Row) :
    α × Option p.Row :=
  ((List.finRange p.hard.length).filter fun r =>
    !((p.row r).isEquality || working.contains r)).foldl
      (takeLess (fun r => roomFor? (p.row r) point.toList step.toList) id) (1, none)

theorem stepLength_eq (point step : p.Point) (working : List p.Row) :
    p.stepLength point step working
      = (max 0 (p.leastRoom point step working).1, (p.leastRoom point step working).2) := by
  refine Prod.ext ?_ rfl
  show (if 0 < (p.leastRoom point step working).1 then _ else (0 : ℝ)) = max 0 _
  split
  · exact (max_eq_right (le_of_lt ‹_›)).symm
  · exact (max_eq_left (not_lt.1 ‹_›)).symm

theorem mem_free {α : Type} [Scalar α] {p : Problem α} {working : List p.Row} {r : p.Row} :
    (r ∈ (List.finRange p.hard.length).filter fun r =>
      !((p.row r).isEquality || working.contains r)) ↔
      (p.row r).isEquality = false ∧ r ∉ working := by
  simp

/-- No watched inequality has a smaller ratio than the scan finds. -/
theorem Watches.leastRoom_le (h : p.Watches step working r) :
    (p.leastRoom point step working).1 ≤ p.ratio point step r :=
  foldl_takeLess_le (mem_free.2 ⟨h.isInequality, h.free⟩)
    (roomFor?_eq_some_iff.2 ⟨h.approached, rfl⟩) _ _

/-- The whole step is open, or a watched inequality has the least ratio, and that is less than
one. -/
theorem leastRoom_cases (point step : p.Point) (working : List p.Row) :
    p.leastRoom point step working = (1, none) ∨ ∃ r, p.Watches step working r ∧
      p.ratio point step r < 1 ∧
        p.leastRoom point step working = (p.ratio point step r, some r) := by
  obtain hkept | ⟨r, hr, room, hroom, hless, htaken⟩ := foldl_takeLess_cases _ id
    ((List.finRange p.hard.length).filter fun r =>
      !((p.row r).isEquality || working.contains r)) (1, none)
  · exact .inl hkept
  · obtain ⟨hinequality, hfree⟩ := mem_free.1 hr
    obtain ⟨happroached, rfl⟩ := roomFor?_eq_some_iff.1 hroom
    exact .inr ⟨r, ⟨hinequality, hfree, happroached⟩, hless, htaken⟩

/-! ### The fraction -/

theorem stepLength_le_one (point step : p.Point) (working : List p.Row) :
    (p.stepLength point step working).1 ≤ 1 := by
  rw [stepLength_eq]
  exact max_le zero_le_one (foldl_takeLess_le_start _ _ _ _)

theorem stepLength_nonneg (point step : p.Point) (working : List p.Row) :
    0 ≤ (p.stepLength point step working).1 := by
  rw [stepLength_eq]
  exact le_max_left 0 _

/-- A watched inequality that holds is not violated by the step, and one that is violated already
does not get worse: then the step goes nowhere. -/
theorem Watches.min_excess_le (h : p.Watches step working r) :
    min 0 ((p.row r).excess point.toList) ≤ (p.row r).excess
      (point.zipWith (fun x d => x + (p.stepLength point step working).1 * d) step).toList := by
  have hle : (p.stepLength point step working).1 ≤ max 0 (p.ratio point step r) := by
    rw [stepLength_eq]
    exact max_le_max_left 0 h.leastRoom_le
  obtain hbefore | hbehind := le_or_gt 0 (p.ratio point step r)
  · rw [max_eq_right hbefore] at hle
    exact (min_le_left _ _).trans (h.excess_nonneg_iff.2 hle)
  · rw [max_eq_left hbehind.le] at hle
    rw [HardRow.excess_move, le_antisymm hle (stepLength_nonneg ..), zero_mul, add_zero]
    exact min_le_right _ _

/-- **No inequality loses more than the tolerance**: one that holds stays that close to its bound,
and one that is violated falls no further behind than that. -/
theorem excess_stepLength (hr : (p.row r).isEquality = false) (hfree : r ∉ working) :
    min 0 ((p.row r).excess point.toList) - 1 / 1000000 ≤ (p.row r).excess
      (point.zipWith (fun x d => x + (p.stepLength point step working).1 * d) step).toList := by
  by_cases hwatched : (p.row r).signedValue step.toList ≤ -(1 / 1000000)
  · have hle : min 0 ((p.row r).excess point.toList) ≤ (p.row r).excess
        (point.zipWith (fun x d => x + (p.stepLength point step working).1 * d) step).toList :=
      Watches.min_excess_le ⟨hr, hfree, hwatched⟩
    linarith
  · have hloss : -(1 / 1000000)
        ≤ (p.stepLength point step working).1 * (p.row r).signedValue step.toList := by
      have hnonneg := p.stepLength_nonneg point step working
      have hone := p.stepLength_le_one point step working
      nlinarith [not_le.1 hwatched]
    rw [HardRow.excess_move]
    linarith [min_le_right 0 ((p.row r).excess point.toList)]

/-- A watched inequality that held holds after the step. -/
theorem isSatisfied_of_watched (hr : (p.row r).isEquality = false) (hworking : r ∉ working)
    (hslope : Scalar.near ((p.row r).signedValue step.toList) 0 = false)
    (hpoint : (p.row r).isSatisfied point.toList Scalar.tolerance = true) :
    (p.row r).isSatisfied
      (point.zipWith (fun x d => x + (p.stepLength point step working).1 * d) step).toList
      Scalar.tolerance = true := by
  by_cases hpos : 0 < (p.row r).signedValue step.toList
  · refine HardRow.isSatisfied_of_le hr hpoint ?_
    rw [HardRow.excess_move]
    linarith [mul_nonneg (p.stepLength_nonneg point step working) hpos.le]
  · obtain ⟨room, hroom⟩ : ∃ room, roomFor? (p.row r) point.toList step.toList = some room := by
      unfold roomFor?
      dsimp only
      rw [hslope, if_neg (by simp [hpos])]
      exact ⟨_, rfl⟩
    have hwatched : p.Watches step working r := ⟨hr, hworking, (roomFor?_eq_some_iff.1 hroom).1⟩
    rw [HardRow.isSatisfied_iff, hr, if_neg (by simp)] at hpoint ⊢
    exact (lt_min (by norm_num) hpoint).trans_le hwatched.min_excess_le

/-- A row blocks exactly if some watched inequality has a ratio below one; the step is whole if none
does. -/
theorem stepLength_none_iff : (p.stepLength point step working).2 = none ↔
    ¬∃ r, p.Watches step working r ∧ p.ratio point step r < 1 := by
  rw [stepLength_eq]
  obtain hwhole | ⟨r, hwatched, hless, htaken⟩ := leastRoom_cases point step working
  · rw [hwhole]
    refine iff_of_true rfl fun ⟨r, hwatched, hless⟩ => ?_
    have hle : (p.leastRoom point step working).1 ≤ p.ratio point step r := hwatched.leastRoom_le
    rw [hwhole] at hle
    exact absurd hless (not_lt.2 hle)
  · rw [htaken]
    exact iff_of_false (by simp) (not_not.2 ⟨r, hwatched, hless⟩)

theorem stepLength_of_none (h : (p.stepLength point step working).2 = none) :
    (p.stepLength point step working).1 = 1 := by
  rw [stepLength_eq] at h ⊢
  obtain hwhole | ⟨r, -, -, htaken⟩ := leastRoom_cases point step working
  · rw [hwhole]
    exact max_eq_right zero_le_one
  · rw [htaken] at h
    exact absurd h (by simp)

/-- **The row that blocks** is a watched inequality with the least ratio, which is less than one;
the step goes as far as that, and nowhere if the row is violated already. -/
theorem stepLength_blocking (h : (p.stepLength point step working).2 = some r) :
    p.Watches step working r ∧ p.ratio point step r < 1 ∧
      (p.stepLength point step working).1 = max 0 (p.ratio point step r) ∧
      ∀ q, p.Watches step working q → p.ratio point step r ≤ p.ratio point step q := by
  rw [stepLength_eq] at h ⊢
  obtain hwhole | ⟨q, hwatched, hless, htaken⟩ := leastRoom_cases point step working
  · rw [hwhole] at h
    exact absurd h (by simp)
  · rw [htaken] at h ⊢
    obtain rfl := Option.some.inj h
    refine ⟨hwatched, hless, rfl, fun r hr => ?_⟩
    have hle : (p.leastRoom point step working).1 ≤ p.ratio point step r := hr.leastRoom_le
    rwa [htaken] at hle

/-- **A step goes as far as the watched inequalities allow.**  No inequality outside the working set
loses more than the tolerance; the step is whole exactly if no watched inequality is met before its
end; and a row that blocks, unless it is violated already, is tight where the step ends, which is as
far as the watched inequalities hold. -/
theorem stepLength_greatest (p : Problem ℝ) (point step : p.Point) (working : List p.Row) :
    ∃ fraction blocking, p.stepLength point step working = (fraction, blocking) ∧
      0 ≤ fraction ∧ fraction ≤ 1 ∧
      (∀ r, (p.row r).isEquality = false → r ∉ working →
        min 0 ((p.row r).excess point.toList) - 1 / 1000000
          ≤ (p.row r).excess (point.zipWith (fun x d => x + fraction * d) step).toList) ∧
      (blocking = none ↔ ¬∃ r, p.Watches step working r ∧ p.ratio point step r < 1) ∧
      (blocking = none → fraction = 1) ∧
      ∀ r, blocking = some r →
        (p.row r).isEquality = false ∧ r ∉ working ∧ fraction < 1 ∧
        ((p.row r).excess point.toList < 0 → fraction = 0) ∧
        (0 ≤ (p.row r).excess point.toList →
          (p.row r).excess (point.zipWith (fun x d => x + fraction * d) step).toList = 0 ∧
          IsGreatest {a | ∀ q, p.Watches step working q →
            0 ≤ (p.row q).excess (point.zipWith (fun x d => x + a * d) step).toList} fraction) := by
  refine ⟨(p.stepLength point step working).1, (p.stepLength point step working).2, rfl,
    stepLength_nonneg .., stepLength_le_one .., fun r => excess_stepLength,
    stepLength_none_iff, stepLength_of_none, fun r hblocking => ?_⟩
  obtain ⟨hwatched, hless, hfraction, hleast⟩ := stepLength_blocking hblocking
  rw [hfraction]
  refine ⟨hwatched.isInequality, hwatched.free, max_lt zero_lt_one hless, fun hbehind => ?_,
    fun hbefore => ?_⟩
  · refine max_eq_left (le_of_not_ge fun hratio => ?_)
    exact absurd (hwatched.ratio_nonneg_iff.1 hratio) (not_le.2 hbehind)
  · rw [max_eq_right (hwatched.ratio_nonneg_iff.2 hbefore)]
    refine ⟨hwatched.excess_ratio, fun q hq => ?_, fun a ha => ?_⟩
    · exact hq.excess_nonneg_iff.2 (hleast q hq)
    · exact hwatched.excess_nonneg_iff.1 (ha r hwatched)

end Problem

end ElasticLayout
