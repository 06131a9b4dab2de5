import ParLoop.Listing.Parse
import ParLoop.Proofs.Flow.InOrder
import ParLoop.Proofs.FlowGraph.CallFree

/-!
# Loop dependence is justified

What is known of a variable at a node should hold on every edge on which one of its definitions
comes to the node. It does on edges from nodes that do not assign the variable, and on those from
assignments to which no way with a jump back leads (`kind_mem_output`).

An assignment is described from what is known where it is made. If control goes back, less may be
known there later; the descriptor behind the assignment is not taken back then. In `staleLoop` it
stays (`staleLoop_unjustified`).
-/

namespace ParLoop.Flow

open Descriptor

/-- **What is known behind a node leaves the node**, on every edge on which a definition of the
variable leaves it: if the node does not assign the variable, or if no jump back is on a way to
it. -/
theorem kind_mem_output {p : Program} {interprocedural : Bool} {g : FlowGraph} {calls : CallGraph}
    {cap : Nat} {r : Solution Descriptor} (hcalls : ∀ i ∈ p.body, i.hasCall = false)
    (hg : FlowGraph.ofProgram p interprocedural = .ok (g, calls))
    (hr : (dependence p.counter).solve g cap = .ok r) {u v d : Nat} {x : String} {k : Kind}
    {X Y : OrderedSet Descriptor} (he : ⟨u, v⟩ ∈ g.edges) (hX : r.output? u = some X)
    (hY : r.input? v = some Y) (hd : ⟨x, .definition d⟩ ∈ X) (hk : ⟨x, .kind k⟩ ∈ Y)
    (hassign : (∀ value, g.instr? u ≠ some (.assign (.var x) value)) ∨ g.OnwardTo u) :
    ⟨x, .kind k⟩ ∈ X := by
  have hg := FlowGraph.ofProgram_isGraphOf hcalls hg
  rw [output?_eq hr] at hX
  obtain ⟨Z, hZ, rfl⟩ := Option.map_eq_some_iff.1 hX
  by_cases hu : ∃ value, g.instr? u = some (.assign (.var x) value)
  · -- The node defines the variable, so the kind was found there.
    obtain ⟨value, hvalue⟩ := hu
    have honward := hassign.resolve_left fun h => h value hvalue
    have hdefined : g.defined? u = some x := by rw [FlowGraph.defined?, hvalue]; rfl
    obtain ⟨Y', hY', hdef, honce, -⟩ := absorbed_of_edge hg hr he hZ
    cases Option.some_inj.1 (hY'.symm.trans hY)
    obtain ⟨d', hd', hfound⟩ :=
      found_of_solve hg (onward_of_onwardTo hg honward he) hr v Y x k hY hk
    obtain rfl : d' = u := by
      rw [honce x k hk d' d hd' (hdef x d hd)]
      exact (definition_mem_leaving hg hdefined).1 hd
    obtain ⟨Z', hZ', hk⟩ := hfound .refl
    cases Option.some_inj.1 (hZ'.symm.trans hZ)
    exact hk
  · exact kind_mem_of_not_assigned hg hr he hZ hY hd hk fun value h => hu ⟨value, h⟩

/-- What is computed of the facts on one edge of a loop. -/
theorem exists_edge_facts (p : Program) (cap u v : Nat)
    (Q : FlowGraph → OrderedSet Descriptor → OrderedSet Descriptor → Bool)
    (h : (do
      let (g, _) ← FlowGraph.ofProgram p false
      let r ← (dependence p.counter).solve g cap
      return g.edges.contains ⟨u, v⟩ &&
        (r.output? u).any fun X => (r.input? v).any fun Y => Q g X Y : Except AnalysisError Bool) =
      .ok true) :
    ∃ g calls r X Y, FlowGraph.ofProgram p false = .ok (g, calls) ∧
      (dependence p.counter).solve g cap = .ok r ∧ ⟨u, v⟩ ∈ g.edges ∧ r.output? u = some X ∧
      r.input? v = some Y ∧ Q g X Y = true := by
  obtain ⟨⟨g, calls⟩, hg, h⟩ := Outcome.bind_eq_ok.1 h
  obtain ⟨r, hr, h⟩ := Outcome.bind_eq_ok.1 h
  have h := Except.ok.inj h
  simp only [Bool.and_eq_true, Array.contains_iff_mem, Option.any_eq_true] at h
  obtain ⟨he, X, hX, Y, hY, hQ⟩ := h
  exact ⟨g, calls, r, X, Y, hg, hr, he, hX, hY, hQ⟩

/-- A loop with an assignment before the place to which control goes back. -/
def settledLoop : Program :=
  .ofBody "i" [.assign (.var "x") (.var "i"), .label "back", .assign (.var "y") (.var "x"),
    .jump "back"]

/-- The assignment of `x` is reached from the start only, so what is known of `x` behind it leaves
it. -/
theorem kind_mem_output_settledLoop :
    ∃ g calls r X Y, FlowGraph.ofProgram settledLoop false = .ok (g, calls) ∧
      (dependence "i").solve g 1000 = .ok r ∧ ⟨2, 3⟩ ∈ g.edges ∧ r.output? 2 = some X ∧
      r.input? 3 = some Y ∧ ⟨"x", .kind .positive⟩ ∈ Y ∧ ⟨"x", .kind .positive⟩ ∈ X := by
  obtain ⟨g, calls, r, X, Y, hg, hr, he, hX, hY, hQ⟩ := exists_edge_facts settledLoop 1000 2 3
    (fun g X Y => decide ((∀ e ∈ g.edges, e.target ≠ 0 ∧ (e.target = 2 → e.source = 0)) ∧
      ⟨"x", .definition 2⟩ ∈ X ∧ ⟨"x", .kind .positive⟩ ∈ Y)) (by decide +kernel)
  obtain ⟨hedges, hd, hk⟩ := of_decide_eq_true hQ
  have hway : ∀ b, Relation.ReflTransGen (fun a b => ⟨a, b⟩ ∈ g.edges) b 2 → b = 0 ∨ b = 2 := by
    intro b hb
    induction hb using Relation.ReflTransGen.head_induction_on with
    | refl => exact Or.inr rfl
    | head hab _ ih =>
      obtain rfl | rfl := ih
      · exact absurd rfl (hedges _ hab).1
      · exact Or.inl ((hedges _ hab).2 rfl)
  have honward : g.OnwardTo 2 := by
    intro a b hab hb
    obtain rfl | rfl := hway b hb
    · exact absurd rfl (hedges _ hab).1
    · have hsource : a = 0 := (hedges _ hab).2 rfl
      omega
  refine ⟨g, calls, r, X, Y, hg, hr, he, hX, hY, hk, ?_⟩
  exact kind_mem_output (by decide) hg hr he hX hY hd hk (Or.inr honward)

/-- A loop that assigns `x` from `y`, goes back, and then knows less of `y`. -/
def staleLoop : Program :=
  .ofBody "i" [.assign (.var "y") (.var "i"), .label "back", .assign (.var "x") (.var "y"),
    .assign (.var "y") (.int 0), .jump "back"]

/-- Behind the assignment of `x`, what was known of `x` at first is still there, although the
assignment does not say so any more. -/
theorem staleLoop_unjustified :
    Listing.parse "loop i \x7b y = i; back: x = y; y = 0; goto back; \x7d" = .ok staleLoop ∧
      (∀ i ∈ staleLoop.body, i.hasCall = false) ∧
      ∃ g calls r X Y, FlowGraph.ofProgram staleLoop false = .ok (g, calls) ∧
        (dependence "i").solve g 1000 = .ok r ∧ ⟨4, 5⟩ ∈ g.edges ∧ r.output? 4 = some X ∧
        r.input? 5 = some Y ∧ ⟨"x", .definition 4⟩ ∈ X ∧ ⟨"x", .kind .positive⟩ ∈ Y ∧
        ⟨"x", .kind .positive⟩ ∉ X := by
  refine ⟨by decide +kernel, by decide, ?_⟩
  obtain ⟨g, calls, r, X, Y, hg, hr, he, hX, hY, hQ⟩ := exists_edge_facts staleLoop 1000 4 5
    (fun _ X Y => decide (⟨"x", .definition 4⟩ ∈ X ∧ ⟨"x", .kind .positive⟩ ∈ Y ∧
      ⟨"x", .kind .positive⟩ ∉ X)) (by decide +kernel)
  exact ⟨g, calls, r, X, Y, hg, hr, he, hX, hY, of_decide_eq_true hQ⟩

end ParLoop.Flow
