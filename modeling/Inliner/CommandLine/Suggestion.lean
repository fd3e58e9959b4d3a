import Inliner.Text.Order

/-! Suggestions for a mistyped option: the names at the least distance in insertions, deletions,
substitutions and swaps of neighbours, if they are near enough. -/
namespace Inliner.CommandLine

def maxDistance : Nat := 3

/-- One row of the distance table from the two rows above it. `a` is the row's unit, `before` that
of the row above; a column holds its unit and that of its left neighbour. -/
def distanceRow (a : Nat) (before : Option Nat) :
    (columns : List (Nat × Option Nat)) → (above twoAbove : List Nat) → (left : Nat) → List Nat
  | [], _, _, _ => []
  | (b, beforeB) :: columns, above, twoAbove, left =>
    let diagonal := above.head?.getD 0
    let up := above.tail.head?.getD 0
    let d := min (min (up + 1) (left + 1)) (diagonal + if a = b then 0 else 1)
    let swapped := beforeB.isSome && before == some b && beforeB == some a
    let d := if swapped then min d (twoAbove.head?.getD 0 + 1) else d
    d :: distanceRow a before columns above.tail
      (if beforeB.isSome then twoAbove.tail else twoAbove) d

def distanceRows (columns : List (Nat × Option Nat)) : (rows : List Nat) → (before : Option Nat) →
    (index : Nat) → (above twoAbove : List Nat) → List Nat
  | [], _, _, above, _ => above
  | a :: rows, before, index, above, twoAbove =>
    let row := index :: distanceRow a before columns above twoAbove index
    distanceRows columns rows (some a) (index + 1) row above

/-- The distance of two texts; texts of very different lengths are taken to differ everywhere. -/
def distance (a b : List Nat) : Nat :=
  if maxDistance < max a.length b.length - min a.length b.length then max a.length b.length
  else
    let columns := b.zip (none :: b.map some)
    let last := distanceRows columns a none 1 (List.range (b.length + 1)) []
    last.getLast?.getD 0

/-- The candidates at the least distance, at most `maxDistance`, that agree with the word in more
than two fifths of its length. -/
def nearest (word : String) (candidates : List String) : List String :=
  let w := Text.units word
  let scored := candidates.filterMap fun c =>
    let u := Text.units c
    let d := distance w u
    let length := max w.length u.length
    if 1 < u.length ∧ 2 * length < 5 * (length - d) ∧ d ≤ maxDistance then some (d, c) else none
  let best := scored.foldl (fun m x => min m x.1) maxDistance
  (scored.filter fun x => x.1 == best).map (·.2)

def suggestion (word : String) (candidates : List String) : String :=
  match ((nearest word candidates).mergeSort Text.nameLe).map ("--" ++ ·) with
  | [] => ""
  | [c] => "\n(Did you mean " ++ c ++ "?)"
  | cs => "\n(Did you mean one of " ++ ", ".intercalate cs ++ "?)"

end Inliner.CommandLine
