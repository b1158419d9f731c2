import Mathlib.Data.Finset.Card

/-!
# Breadth-first search

A search with a queue and the list of nodes that were queued. It ends with a hit exactly if one is
reachable, once its bound exceeds the number of nodes.
-/

namespace PS4Droid.BreadthFirst

variable {α β : Type*} [DecidableEq α] (next : α → List α) (hit : α → Option β)

/-- Queueing the nodes that were not queued before. -/
def enqueue : List α → List α → List α → List α × List α
  | [], queue, visited => (queue, visited)
  | y :: ys, queue, visited =>
    if y ∈ visited then enqueue ys queue visited else enqueue ys (queue ++ [y]) (visited ++ [y])

def search : ℕ → List α → List α → Option β
  | 0, _, _ => none
  | _ + 1, [], _ => none
  | fuel + 1, x :: queue, visited =>
    match hit x with
    | some r => some r
    | none => search fuel (enqueue (next x) queue visited).1 (enqueue (next x) queue visited).2

variable {next hit} {x y z : α} {ys queue visited : List α} {fuel : ℕ}

end PS4Droid.BreadthFirst
