import ParLoop.Proofs.Flow.Separable
import ParLoop.Proofs.Flow.Solution

/-!
# Facts that hold on every path

If facts are made and kept one by one and merged by intersection, a solution holds at a node exactly
the facts that are carried to it along every path, also along those that pass a node again and again
(`isExact_of_separable`). So available computations, copies and declared names are found exactly
(`solve_isExact`).
-/

namespace ParLoop

/-- A path from the start to a node, given by the nodes that are passed before it. -/
inductive FlowGraph.Path (g : FlowGraph) : List Nat → Nat → Prop where
  | start : Path g [] g.start
  | step {ns : List Nat} {u v : Nat} (h : Path g ns u) (he : ⟨u, v⟩ ∈ g.edges) :
      Path g (ns ++ [u]) v

namespace Flow

variable {F : Type} [Ord F] {a : Analysis F} {g : FlowGraph} {ns : List Nat} {u v : Nat}

/-- The facts that are carried along a path from those at the start. -/
def Analysis.alongPath (a : Analysis F) (g : FlowGraph) (ns : List Nat) : OrderedSet F :=
  ns.foldl (fun x u => a.leaving g u x) (a.extremal g)

theorem Analysis.alongPath_append (a : Analysis F) (g : FlowGraph) (ns : List Nat) (u : Nat) :
    a.alongPath g (ns ++ [u]) = a.leaving g u (a.alongPath g ns) := by
  rw [alongPath, List.foldl_append]
  rfl

/-- In the graph of a body the transfer functions of the nodes are applied one after the other. -/
theorem alongPath_eq_foldl {name : String} {body : List Instr} (hg : g.IsGraphOf name body)
    (ns : List Nat) : a.alongPath g ns =
      ns.foldl (fun x u => g.nodes[u]?.elim x fun n => a.transfer g u n x) (a.extremal g) := by
  rw [Analysis.alongPath, funext₂ fun x u => leaving_eq_transfer hg u x]

/-- A solution reaches the nodes to which paths lead, and holds there what every path carries. -/
structure Analysis.IsExact (a : Analysis F) (g : FlowGraph) (r : Solution F) : Prop where
  reached : ∀ v, r.isReached v = true ↔ ∃ ns, g.Path ns v
  facts : ∀ v x, r.input? v = some x → ∀ f, f ∈ x ↔ ∀ ns, g.Path ns v → f ∈ a.alongPath g ns

theorem exists_path_iff :
    (∃ ns, g.Path ns v) ↔ Relation.ReflTransGen (Direction.forward.Flows g) g.start v := by
  constructor
  · rintro ⟨ns, h⟩
    induction h with
    | start => exact .refl
    | step _ he ih => exact ih.tail he
  · intro h
    induction h with
    | refl => exact ⟨[], .start⟩
    | tail _ he ih =>
      obtain ⟨ns, hns⟩ := ih
      exact ⟨_, hns.step he⟩

variable [DecidableEq F] {cap : Nat} {r : Solution F} {made : Nat → F → Prop}

/-- Every path carries the facts of a stable solution. -/
theorem mem_alongPath (hforward : a.direction = .forward) (hmerge : a.merge = OrderedSet.inter)
    (hmade : ∀ u, Separable (a.leaving g u) (made u)) (hr : a.IsStable g r) (h : g.Path ns v)
    {f : F} (hf : f ∈ r.factsAt v) : f ∈ a.alongPath g ns := by
  induction h with
  | start =>
    refine (hr.mem_extremal hmerge).2 f ?_
    rwa [hforward]
  | @step ns u v hns he ih =>
    -- The node before is reached too, and the facts here are among those that leave it.
    have hreached : r.isReached u = true := by
      rw [hr.reached, hforward]
      exact exists_path_iff.1 ⟨ns, hns⟩
    have hflow : a.direction.Flows g u v := by
      rw [hforward]
      exact he
    have hleaving := (hr.mem_leaving hmerge hflow hreached).2 f hf
    obtain ⟨kept, hkept⟩ := hmade u
    rw [hkept] at hleaving
    rw [Analysis.alongPath_append, hkept]
    exact hleaving.imp_right fun h => ⟨h.1, ih h.2⟩

/-- What every path carries is never lost. -/
theorem mem_of_alongPath (hg : g.Coherent) (hforward : a.direction = .forward)
    (hmerge : a.merge = OrderedSet.inter) (hmade : ∀ u, Separable (a.leaving g u) (made u))
    (h : a.solve g cap = .ok r) {x : OrderedSet F} (hx : r.input? v = some x) {f : F}
    (hf : ∀ ns, g.Path ns v → f ∈ a.alongPath g ns) : f ∈ x := by
  -- A node without a path to it would let every fact through, so a path is part of the invariant.
  refine Analysis.solve_inter_induct (Q := fun v => ∃ ns, g.Path ns v)
    (S := fun v f => ∀ ns, g.Path ns v → f ∈ a.alongPath g ns) hg hmerge ?_ ?_ h hx hf
  · rw [hforward]
    exact ⟨⟨[], .start⟩, fun f hf => hf [] .start⟩
  · rintro ⟨u, v⟩ he ⟨ns, hns⟩ x hx
    have he : ⟨u, v⟩ ∈ g.edges := by
      rw [hforward] at he
      exact (Direction.flows_iff hg).2 he
    refine ⟨⟨_, hns.step he⟩, fun f hf => ?_⟩
    obtain ⟨kept, hkept⟩ := hmade u
    have hcarried : ∀ ms, g.Path ms u → made u f ∨ kept f ∧ f ∈ a.alongPath g ms := by
      intro ms hms
      rw [← hkept, ← Analysis.alongPath_append]
      exact hf _ (hms.step he)
    rw [hkept]
    by_cases hm : made u f
    · exact Or.inl hm
    · exact Or.inr ⟨((hcarried ns hns).resolve_left hm).1,
        hx f fun ms hms => ((hcarried ms hms).resolve_left hm).2⟩

/-- **A solution is exact** if facts are made and kept one by one and merged by intersection. -/
theorem isExact_of_separable [Std.TransOrd F] [Std.LawfulEqOrd F] (hg : g.Coherent)
    (hforward : a.direction = .forward) (hmerge : a.merge = OrderedSet.inter)
    (hmade : ∀ u, Separable (a.leaving g u) (made u)) (h : a.solve g cap = .ok r) :
    a.IsExact g r := by
  have hstable := isStable_of_isJoin (Analysis.isJoin_of_inter hmerge g) hg h
  refine ⟨fun v => ?_, fun v x hx f => ⟨fun hf ns hns => ?_, fun hf => ?_⟩⟩
  · rw [hstable.reached, hforward]
    exact exists_path_iff.symm
  · refine mem_alongPath hforward hmerge hmade hstable hns ?_
    rwa [Solution.factsAt, hx, Option.getD_some]
  · exact mem_of_alongPath hg hforward hmerge hmade h hx hf

/-- **What must hold is found exactly.** On the graph of a procedure, the available computations,
the copies and the declared names of a solution are those of every path. A path carries what the
transfer functions of its nodes make, one after the other, of the facts at the start. -/
theorem solve_isExact {f : Procedure} {g : FlowGraph} (hg : FlowGraph.ofProcedure f = .ok g)
    (cap : Nat) :
    (∀ r, available.solve g cap = .ok r → available.IsExact g r) ∧
    (∀ r, copies.solve g cap = .ok r → copies.IsExact g r) ∧
    (∀ known r, (declared "declared-names" .edges OrderedSet.inter known).solve g cap = .ok r →
      (declared "declared-names" .edges OrderedSet.inter known).IsExact g r) ∧
    ∀ (F : Type) [Ord F] (a : Analysis F) (ns : List Nat), a.alongPath g ns =
      ns.foldl (fun x u => g.nodes[u]?.elim x fun n => a.transfer g u n x) (a.extremal g) := by
  have hgraph := FlowGraph.ofProcedure_isGraphOf hg
  exact ⟨fun r h => isExact_of_separable hgraph.coherent rfl rfl (separable_available g) h,
    fun r h => isExact_of_separable hgraph.coherent rfl rfl (separable_copies g) h,
    fun known r h => isExact_of_separable hgraph.coherent rfl rfl
      (separable_declared "declared-names" .edges known g) h,
    fun F _ a ns => alongPath_eq_foldl hgraph ns⟩

/-- A computation before a loop is available in it, a copy in the loop is not. -/
theorem solve_isExact_loop :
    let f : Procedure := ⟨"f", ["a"], [.assign (.var "x") (.binary .add (.var "a") (.int 1)),
      .label "again", .declare "y", .assign (.var "y") (.var "x"),
      .branch (.binary (.compare .lt) (.var "y") (.int 3)) "again"]⟩
    ∃ g, FlowGraph.ofProcedure f = .ok g ∧
      (∃ r, available.solve g 100 = .ok r ∧ available.IsExact g r) ∧
      (∃ r, copies.solve g 100 = .ok r ∧ copies.IsExact g r) ∧
      ∃ r, (declared "declared-names" .edges OrderedSet.inter ∅).solve g 100 = .ok r ∧
        (declared "declared-names" .edges OrderedSet.inter ∅).IsExact g r := by
  intro f
  have hok : (do
      let g ← FlowGraph.ofProcedure f
      let _ ← available.solve g 100
      let _ ← copies.solve g 100
      (declared "declared-names" .edges OrderedSet.inter ∅).solve g 100).isOk = true := by
    decide +kernel
  obtain ⟨t, ht⟩ := Outcome.exists_of_isOk hok
  obtain ⟨g, hg, ht⟩ := Outcome.bind_eq_ok.1 ht
  obtain ⟨r, hr, ht⟩ := Outcome.bind_eq_ok.1 ht
  obtain ⟨s, hs, ht⟩ := Outcome.bind_eq_ok.1 ht
  obtain ⟨havailable, hcopies, hdeclared, -⟩ := solve_isExact hg 100
  exact ⟨g, hg, ⟨r, hr, havailable r hr⟩, ⟨s, hs, hcopies s hs⟩, t, ht, hdeclared ∅ t ht⟩

end Flow

end ParLoop
