/-!
Disjoint sets of the numbers below some bound, joined by union. Each set is a tree that leads to its
representative; finding the representative shortens the path to it, and the smaller of two sets joins the
larger.
-/

namespace FiniteAutomata

/-- A forest of parents, and for each representative the size of its set. -/
structure DisjointSets where
  parents : Array Nat
  sizes : Array Nat
deriving DecidableEq

namespace DisjointSets

/-- Every number below `n` in a set of its own. -/
def discrete (n : Nat) : DisjointSets := ⟨Array.range n, Array.replicate n 1⟩

/-- The parent of `x`; a number out of range is its own. -/
def parent (s : DisjointSets) (x : Nat) : Nat := s.parents.getD x x

def sizeOf (s : DisjointSets) (x : Nat) : Nat := s.sizes.getD x 0

/-- Follows at most `steps` parents from `x`, and makes what they end in the parent of every number
passed. -/
def compress : Nat → DisjointSets → Nat → Nat × DisjointSets
  | 0, s, x => (x, s)
  | steps + 1, s, x =>
    if s.parent x = x then (x, s) else
      let (root, s') := compress steps s (s.parent x)
      (root, { s' with parents := s'.parents.setIfInBounds x root })

/-- The representative of `x`. No path is longer than there are numbers. -/
def find (s : DisjointSets) (x : Nat) : Nat × DisjointSets := compress s.parents.size s x

/-- Makes the representative `y` a child of the representative `x`. -/
def attach (s : DisjointSets) (x y : Nat) : DisjointSets :=
  ⟨s.parents.setIfInBounds y x, s.sizes.setIfInBounds x (s.sizeOf x + s.sizeOf y)⟩

/-- Joins the sets of `x` and `y`, and says whether they were apart. -/
def union (s : DisjointSets) (x y : Nat) : Bool × DisjointSets :=
  let (rx, s₁) := s.find x
  let (ry, s₂) := s₁.find y
  if rx = ry then (false, s₂)
  else if s₂.sizeOf rx < s₂.sizeOf ry then (true, s₂.attach ry rx)
  else (true, s₂.attach rx ry)

end DisjointSets

end FiniteAutomata
