import FiniteAutomata.Deterministic.Basic

/-!
Refinement of a partition of the states until states of one block cannot be told apart. A queue holds the
blocks, each with a symbol, that may still split others; a block is split by the states that lead into the
queued block. Of the two parts the larger stays in place and the smaller becomes a new block.
-/

namespace FiniteAutomata

/-- A partition, and the splitters not used yet: the position of a block with a symbol. -/
structure Refinement where
  blocks : List StateSet
  queue : List (Nat × Symbol)
deriving DecidableEq

namespace Refinement

/-- The splitters that some blocks give, by block and then by symbol. -/
def splitters (symbols : List Symbol) (positions : List Nat) : List (Nat × Symbol) :=
  positions.flatMap fun i => symbols.map (i, ·)

/-- The refinement that starts from a partition, with every block and symbol queued. -/
def start (symbols : List Symbol) (blocks : List StateSet) : Refinement :=
  ⟨blocks, splitters symbols (List.range blocks.length)⟩

/-- Splits a block by the set `P`: what stays in place, and the new block if both parts have members. -/
def split (P block : StateSet) : StateSet × Option StateSet :=
  let inside := block ∩ P
  let outside := block \ P
  if inside.isEmpty || outside.isEmpty then (block, none)
  else if inside.size ≤ outside.size then (outside, some inside)
  else (inside, some outside)

/-- Uses the first splitter of the queue, where `into B a` holds the states that `a` leads into `B`. New
blocks go to the end, and are queued with every symbol. -/
def step (symbols : List Symbol) (into : StateSet → Symbol → StateSet) (r : Refinement) : Refinement :=
  match r.queue with
  | [] => r
  | (i, a) :: queue =>
    let parts := r.blocks.map (split (into (r.blocks.getD i ∅) a))
    let new := parts.filterMap (·.2)
    ⟨parts.map (·.1) ++ new, queue ++ splitters symbols (List.range' r.blocks.length new.length)⟩

/-- Uses splitters until the queue is empty, at most the given number. -/
def run (symbols : List Symbol) (into : StateSet → Symbol → StateSet) : Nat → Refinement → Refinement
  | 0, r => r
  | fuel + 1, r => if r.queue.isEmpty then r else run symbols into fuel (step symbols into r)

end Refinement

namespace Deterministic

/-- The states that take part: the reachable ones and the dead state. -/
def participants (D : Deterministic) : StateSet := D.reachable.insert D.dead

/-- The completed transition function on some states, as transitions. -/
def moves (D : Deterministic) (states : StateSet) : List Transition :=
  states.toList.flatMap fun i => D.symbols.map fun a => ⟨i, .symbol a, D.next i a⟩

/-- The sources of the moves that lead into a set on `a`. -/
def sourcesInto (moves : List Transition) (S : StateSet) (a : Symbol) : StateSet :=
  .ofList ((moves.filter fun t => t.label == .symbol a && S.contains t.target).map Transition.source)

/-- Some states, the final ones told apart from the others. -/
def finalBlocks (D : Deterministic) (states : StateSet) : List StateSet :=
  [states ∩ D.finals, states \ D.finals].filter fun B => !B.isEmpty

/-- The participants, parted by the words accepted from them. A participant makes at most one block and each
block is queued once with each symbol, which bounds the splitters used. -/
def blocks (D : Deterministic) : List StateSet :=
  let states := D.participants
  (Refinement.run D.symbols (sourcesInto (D.moves states)) (states.size * D.symbols.length)
    (.start D.symbols (D.finalBlocks states))).blocks

end Deterministic

end FiniteAutomata
