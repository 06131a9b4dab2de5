import ParLoop.Flow.Solve

/-!
# Names and nodes on paths

Flow problems about what lies on the paths through a graph: the names declared before a node, the
variables whose values are used after it, and the nodes passed on the way.
-/

namespace ParLoop.Flow

/-- The names declared before a node, given those declared at the start: on some path if sets are
merged by `union`, on every path if by `inter`. -/
def declared (name : String) (seed : Seed)
    (merge : OrderedSet String → OrderedSet String → OrderedSet String)
    (known : OrderedSet String) : Analysis String where
  name := name
  seed := seed
  subject := some
  merge := merge
  extremal _ := known
  transfer _ _ n facts :=
    match n.kind with
    | .instr (.declare x) => facts.insert x
    | _ => facts

/-- The variables whose values are used on some path after a node. -/
def live (seed : Seed) : Analysis String where
  name := "live"
  direction := .backward
  seed := seed
  subject := some
  merge := OrderedSet.union
  extremal _ := ∅
  transfer _ _ n facts :=
    match n.kind with
    | .instr i =>
      i.expressions.foldl (fun s e => s.union e.vars)
        (facts.filter fun x => i.defined? ≠ some x)
    | _ => facts

/-- The nodes passed on the way to a node. These facts are about no variable. -/
def visited (direction : Direction) (seed : Seed)
    (merge : OrderedSet Nat → OrderedSet Nat → OrderedSet Nat) : Analysis Nat where
  name := "visited"
  direction := direction
  seed := seed
  subject _ := none
  merge := merge
  extremal _ := ∅
  transfer _ node _ facts := facts.insert node

end ParLoop.Flow
