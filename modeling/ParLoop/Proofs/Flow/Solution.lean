import Mathlib.Logic.Relation
import ParLoop.Flow.Names
import ParLoop.Proofs.Flow.Dependence
import ParLoop.Proofs.FlowGraph.Built

/-!
# What a solution says

A solution reaches the nodes to which flows lead from the origin (`isReached_iff`), and it is
stable: the facts at a node absorb those that leave the nodes before it. Both hold on every settled
graph, in both directions and from both worklists, whatever the transfer function, if facts are
merged by union or by intersection, and for loop dependence (`solve_isStable`).
-/

namespace ParLoop.Flow

/-- Facts flow from a node to another one. -/
def Direction.Flows (d : Direction) (g : FlowGraph) (u v : Nat) : Prop :=
  match d with
  | .forward => ⟨u, v⟩ ∈ g.edges
  | .backward => ⟨v, u⟩ ∈ g.edges

variable {F : Type} [Ord F] {a : Analysis F} {g : FlowGraph} {r : Solution F}

theorem Direction.flows_iff (hg : g.Coherent) {d : Direction} {u v : Nat} :
    d.Flows g u v ↔ ⟨u, v⟩ ∈ d.flowsFrom g u := by
  cases d with
  | forward =>
    show ⟨u, v⟩ ∈ g.edges ↔ _
    rw [← hg.mem_successors]
    simp [flowsFrom]
  | backward =>
    show ⟨v, u⟩ ∈ g.edges ↔ _
    rw [← hg.mem_predecessors]
    simp [flowsFrom]

/-- A solution reaches what flows lead to, and nothing more can be carried along any flow. Between a
call site and its callee only facts about the arguments go in, and only those about the result come
back; within a body the transfer function decides. -/
structure Analysis.IsStable (a : Analysis F) (g : FlowGraph) (r : Solution F) : Prop where
  reached : ∀ v, r.isReached v = true ↔
    Relation.ReflTransGen (a.direction.Flows g) (a.direction.origin g) v
  flow : ∀ u v y, a.direction.Flows g u v → r.output? u = some y →
    ∃ x, r.input? v = some x ∧ a.merge x y = x
  origin : ∃ x, r.input? (a.direction.origin g) = some x ∧ a.merge x (a.extremal g) = x
  output : ∀ v, r.output? v = (r.input? v).map (a.leaving g v)
  enter : ∀ v home caller callee, g.nodes[v]? = some ⟨home, .enter caller callee⟩ →
    r.output? v = (r.input? v).map (OrderedSet.filter fun f =>
      (a.subject f).any fun x => (argumentPrefix callee).toList.isPrefixOf x.toList)
  leave : ∀ v home callee caller, g.nodes[v]? = some ⟨home, .leave callee caller⟩ →
    r.output? v = (r.input? v).map (OrderedSet.filter fun f =>
      a.subject f == some (resultName callee))
  inside : ∀ v n, g.nodes[v]? = some n → n.crosses = false →
    r.output? v = (r.input? v).map (a.transfer g v n)

variable [DecidableEq F] {cap : Nat}

/-- Where facts are merged by intersection, a stable solution holds at the origin no more than what
is known there. -/
theorem Analysis.IsStable.mem_extremal (hr : a.IsStable g r) (hmerge : a.merge = OrderedSet.inter) :
    r.isReached (a.direction.origin g) = true ∧
      ∀ f ∈ r.factsAt (a.direction.origin g), f ∈ a.extremal g := by
  obtain ⟨x, hx, habsorbs⟩ := hr.origin
  refine ⟨Option.isSome_iff_exists.2 ⟨x, hx⟩, fun f hf => ?_⟩
  rw [Solution.factsAt, hx, Option.getD_some, ← habsorbs, hmerge] at hf
  exact (OrderedSet.mem_inter.1 hf).2

/-- At the end of a flow it holds no more than what leaves the node before. -/
theorem Analysis.IsStable.mem_leaving (hr : a.IsStable g r) (hmerge : a.merge = OrderedSet.inter)
    {u v : Nat} (huv : a.direction.Flows g u v) (hu : r.isReached u = true) :
    r.isReached v = true ∧ ∀ f ∈ r.factsAt v, f ∈ a.leaving g u (r.factsAt u) := by
  obtain ⟨x, hx⟩ := Option.isSome_iff_exists.1 hu
  have hout : r.output? u = some (a.leaving g u x) := by rw [hr.output, hx, Option.map_some]
  obtain ⟨y, hy, habsorbs⟩ := hr.flow u v _ huv hout
  refine ⟨Option.isSome_iff_exists.2 ⟨y, hy⟩, fun f hf => ?_⟩
  rw [Solution.factsAt, hy, Option.getD_some, ← habsorbs, hmerge] at hf
  rw [Solution.factsAt, hx, Option.getD_some]
  exact (OrderedSet.mem_inter.1 hf).2

/-- What leaves a node is made of what reaches it. -/
theorem output?_eq (h : a.solve g cap = .ok r) (v : Nat) :
    r.output? v = (r.input? v).map (a.leaving g v) := by
  unfold Analysis.solve at h
  split at h
  case h_1 => cases h
  case h_2 s _ =>
    cases h
    show (s.inputs.mapIdx fun node facts => facts.map (a.leaving g node))[v]?.join =
      s.inputs[v]?.join.map (a.leaving g v)
    rw [Array.getElem?_mapIdx]
    cases s.inputs[v]? <;> rfl

/-- A solution reaches exactly the nodes to which flows lead from the origin. -/
theorem isReached_iff (ha : a.IsJoin g) (hg : g.Coherent) (h : a.solve g cap = .ok r) (v : Nat) :
    r.isReached v = true ↔
      Relation.ReflTransGen (a.direction.Flows g) (a.direction.origin g) v := by
  obtain ⟨⟨x, hx, -⟩, hflow⟩ := Analysis.solve_stable ha hg h
  constructor
  · intro hv
    obtain ⟨y, hy⟩ := Option.isSome_iff_exists.1 hv
    -- Facts arrive along flows only, so the property to carry does not look at the facts.
    refine Analysis.solve_induct
      (P := fun v _ => Relation.ReflTransGen (a.direction.Flows g) (a.direction.origin g) v)
      hg .refl (fun e he _ hsource => ?_) (fun _ _ _ hx _ => hx) h hy
    exact hsource.tail ((Direction.flows_iff hg).2 he)
  · intro hv
    -- What leaves a reached node is absorbed behind it, where there are facts then.
    induction hv with
    | refl => exact Option.isSome_iff_exists.2 ⟨x, hx⟩
    | @tail u v _ huv ih =>
      obtain ⟨y, hy⟩ := Option.isSome_iff_exists.1 ih
      obtain ⟨z, hz, -⟩ := hflow ⟨u, v⟩ ((Direction.flows_iff hg).1 huv) y hy
      exact Option.isSome_iff_exists.2 ⟨z, hz⟩

/-- A solution is stable if merging is a join. -/
theorem isStable_of_isJoin (ha : a.IsJoin g) (hg : g.Coherent) (h : a.solve g cap = .ok r) :
    a.IsStable g r where
  reached := isReached_iff ha hg h
  flow u v y huv hy := by
    rw [output?_eq h] at hy
    obtain ⟨x, hx, rfl⟩ := Option.map_eq_some_iff.1 hy
    exact (Analysis.solve_stable ha hg h).2 ⟨u, v⟩ ((Direction.flows_iff hg).1 huv) x hx
  origin := (Analysis.solve_stable ha hg h).1
  output := output?_eq h
  enter v _ _ _ hv := (output?_eq h v).trans
    (Option.map_congr fun x _ => a.leaving_of_enter x hv)
  leave v _ _ _ hv := (output?_eq h v).trans
    (Option.map_congr fun x _ => a.leaving_of_leave x hv)
  inside v _ hv hn := (output?_eq h v).trans
    (Option.map_congr fun x _ => a.leaving_of_not_crosses x hv hn)

/-- **A solution is stable**, on every settled graph whose edges join existing nodes: for every
problem whose facts are merged by union or by intersection, and for loop dependence. -/
theorem solve_isStable {g : FlowGraph} (hg : g.Built) (hsettled : g.settled = true)
    (hedges : ∀ e ∈ g.edges, e.source < g.size ∧ e.target < g.size) :
    (∀ (F : Type) [Ord F] [DecidableEq F] [Std.TransOrd F] [Std.LawfulEqOrd F] (a : Analysis F)
      (cap : Nat) (r : Solution F), a.merge = OrderedSet.union ∨ a.merge = OrderedSet.inter →
        a.solve g cap = .ok r → a.IsStable g r) ∧
    ∀ (counter : String) (cap : Nat) (r : Solution Descriptor),
      (dependence counter).solve g cap = .ok r → (dependence counter).IsStable g r := by
  have hcoherent := hg.sound.coherent hsettled hedges
  refine ⟨fun F _ _ _ _ a cap r hmerge h => ?_, fun counter cap r h => ?_⟩
  · obtain hmerge | hmerge := hmerge
    · exact isStable_of_isJoin (Analysis.isJoin_of_union hmerge g) hcoherent h
    · exact isStable_of_isJoin (Analysis.isJoin_of_inter hmerge g) hcoherent h
  · exact isStable_of_isJoin (isJoin_dependence counter g) hcoherent h

/-- A node that follows itself, with facts that are carried backward and forward. -/
theorem solve_isStable_loop :
    let g := (((FlowGraph.ofRoot "f").placeInstr "f" 0 (.label "again")).addEdge 0 2).addEdge 2 2
    let a := visited .backward .edges OrderedSet.union
    (∃ r, a.solve g.settle 20 = .ok r ∧ a.IsStable g.settle r) ∧
      ∃ r, (dependence "i").solve g.settle 20 = .ok r ∧ (dependence "i").IsStable g.settle r := by
  intro g a
  have hbuilt : g.settle.Built :=
    ((((FlowGraph.built_ofRoot "f").grows (.placeInstr _ "f" 0 (.label "again"))).grows
      (.addEdge trivial)).grows (.addEdge trivial)).grows (.settle g)
  have hedges : ∀ e ∈ g.settle.edges, e.source < g.settle.size ∧ e.target < g.settle.size := by
    decide +kernel
  have hstable := solve_isStable hbuilt rfl hedges
  obtain ⟨r, hr⟩ : ∃ r, a.solve g.settle 20 = .ok r :=
    Outcome.exists_of_isOk (by decide +kernel)
  obtain ⟨s, hs⟩ : ∃ s, (dependence "i").solve g.settle 20 = .ok s :=
    Outcome.exists_of_isOk (by decide +kernel)
  exact ⟨⟨r, hr, hstable.1 Nat a 20 r (Or.inl rfl) hr⟩, s, hs, hstable.2 "i" 20 s hs⟩

end ParLoop.Flow
