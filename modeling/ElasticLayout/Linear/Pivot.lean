import ElasticLayout.Scalar

/-!
# Pivot choice

Partial pivoting over a list of rows: the row with the largest leading entry changes places with
the first row.

* `firstLargest` -- the index of the first entry that no later entry exceeds;
* `swapToFront?` -- exchange an entry with the first one, and split off the new front;
* `pivot?` -- bring the entry of largest magnitude to the front.
-/

namespace ElasticLayout.Linear

/-- Exchange the entry at an index with the first entry, and give the new front and the rest. -/
def swapToFront? {β : Type} : List β → Nat → Option (β × List β)
  | [], _ => none
  | x :: xs, 0 => some (x, xs)
  | x :: xs, k + 1 =>
    match xs[k]? with
    | some y => some (y, xs.set k x)
    | none => some (x, xs)

variable {α : Type} [Scalar α] {β : Type}

/-- Index of the first entry that no later entry exceeds; `0` for the empty list. -/
def firstLargest : List α → Nat
  | [] => 0
  | x :: xs => go x 0 1 xs
where
  /-- Scan with the largest entry so far, its index, and the index of the next entry. -/
  go (largest : α) (index next : Nat) : List α → Nat
    | [] => index
    | x :: xs => if largest < x then go x next (next + 1) xs else go largest index (next + 1) xs

/-- The entry of largest magnitude and the others, as an exchange with the first entry leaves
them; the first of several largest wins. -/
def pivot? (entry : β → α) (rows : List β) : Option (β × List β) :=
  swapToFront? rows (firstLargest (rows.map fun row => Scalar.abs (entry row)))

end ElasticLayout.Linear
