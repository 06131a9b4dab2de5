import ParLoop.Proofs.Flow.Converge
import ParLoop.Proofs.Optimize.Measure

/-!
# Reusing results a second time

A computation that is replaced by a variable makes no result available any more, so after a pass
less may be available than before, behind every replaced instruction and around every loop. That a
second pass finds nothing is a matter of monotonicity: where no node lets more facts through than
before, no solution holds more facts than before (`mem_factsAt_of_below`). A second pass may need
more visits than the first one; from some number of visits on it succeeds and replaces nothing
(`apply_reuse_again`).
-/

namespace ParLoop

namespace Flow

/-! ### Facts on two graphs -/

variable {F : Type} [Ord F] {a : Analysis F} {g g' : FlowGraph}

/-- On two graphs facts flow alike, and nowhere on the first one do more of them get through. -/
structure Analysis.Below (a : Analysis F) (g' g : FlowGraph) : Prop where
  origin_eq : a.direction.origin g' = a.direction.origin g
  flows_iff : ∀ u v, a.direction.Flows g' u v ↔ a.direction.Flows g u v
  extremal : ∀ f ∈ a.extremal g', f ∈ a.extremal g
  leaving : ∀ u x' x, (∀ f ∈ x', f ∈ x) → ∀ f ∈ a.leaving g' u x', f ∈ a.leaving g u x

variable {s s' : Solution F} {cap : Nat}

/-- The same nodes are reached. -/
theorem Analysis.Below.isReached_iff (h : a.Below g' g) (hs' : a.IsStable g' s')
    (hs : a.IsStable g s) (v : Nat) : s'.isReached v = true ↔ s.isReached v = true := by
  have hflows : a.direction.Flows g' = a.direction.Flows g :=
    funext fun u => funext fun v => propext (h.flows_iff u v)
  rw [hs'.reached, hs.reached, hflows, h.origin_eq]

/-- **What holds on every path is monotone.** If nowhere more facts get through, no node has more
facts in the end. -/
theorem mem_factsAt_of_below [DecidableEq F] [Std.TransOrd F] [Std.LawfulEqOrd F]
    (h : a.Below g' g) (hmerge : a.merge = OrderedSet.inter) (hg : g.Coherent)
    (hs' : a.IsStable g' s') (hs : a.solve g cap = .ok s) {v : Nat} {f : F}
    (hf : f ∈ s'.factsAt v) : f ∈ s.factsAt v := by
  have hstable := isStable_of_isJoin (Analysis.isJoin_of_inter hmerge g) hg hs
  have hreached' : s'.isReached v = true := by
    rw [Solution.isReached, Option.isSome_iff_ne_none]
    intro hnone
    rw [Solution.factsAt, hnone] at hf
    exact OrderedSet.not_mem_empty f hf
  obtain ⟨x, hx⟩ := Option.isSome_iff_exists.1 ((h.isReached_iff hs' hstable v).1 hreached')
  -- The run on the second graph only ever drops facts that the first solution does not hold.
  rw [Solution.factsAt, hx, Option.getD_some]
  refine Analysis.solve_inter_induct (Q := fun v => s'.isReached v = true)
    (S := fun v f => f ∈ s'.factsAt v) hg hmerge ?_ ?_ hs hx hf
  · obtain ⟨hreached, hextremal⟩ := hs'.mem_extremal hmerge
    rw [h.origin_eq] at hreached hextremal
    exact ⟨hreached, fun f hf => h.extremal f (hextremal f hf)⟩
  · rintro ⟨u, v⟩ he hu x hx
    have huv := (h.flows_iff u v).2 ((Direction.flows_iff hg).2 he)
    obtain ⟨hv, hleaving⟩ := hs'.mem_leaving hmerge huv hu
    exact ⟨hv, fun f hf => h.leaving u _ x hx f (hleaving f hf)⟩

/-! ### Less is available where results are reused -/

theorem computeAt_mono {node : Nat} {i : Instr} {x x' : OrderedSet Computation}
    (hx : ∀ f ∈ x', f ∈ x) : ∀ f ∈ computeAt node i x', f ∈ computeAt node i x := by
  intro f hf
  obtain ⟨kept, hkept⟩ := separable_computeAt node i
  rw [hkept] at hf ⊢
  exact hf.imp_right fun hf => ⟨hf.1, hx f hf.2⟩

/-- A variable that is read in place of a computation makes nothing available. -/
theorem computeAt_reuseAt {node : Nat} {i j : Instr} {facts x : OrderedSet Computation}
    (h : Pass.reuseAt facts i = some j) : ∀ f ∈ computeAt node j x, f ∈ computeAt node i x := by
  obtain ⟨y, c, -, rfl, rfl⟩ := Pass.reuseAt_eq_some h
  have hreusable : c.value.isReusable = true := (Pass.computes_reuseAt h).1
  have hcall : c.value.hasCall = false := by
    simp only [Expr.isReusable, Bool.and_eq_true, Bool.not_eq_true'] at hreusable
    exact hreusable.1.2
  have hcopy : computeAt node (.assign (.var y) (.var c.target)) x = keepOthers x y := rfl
  have hcompute : ∀ f ∈ keepOthers x y, f ∈ computeAt node (.assign (.var y) c.value) x := by
    intro f hf
    simp only [computeAt, Instr.hasCall, Instr.expressions, List.any_cons, List.any_nil, hcall,
      Bool.or_self, Bool.false_eq_true, if_false]
    split
    · exact OrderedSet.mem_insert.2 (Or.inr hf)
    · exact hf
  rw [hcopy]
  exact hcompute

end Flow

namespace Pass

open ParLoop.Flow

variable {change : Instr → Nat → Option Instr} {body : List Instr} {name : String}
  {g g' : FlowGraph} {f f' : Procedure} {cap count : Nat}

/-- Replaced computations let fewer results through, everywhere on the graph of a body. -/
theorem below_replaceAll {facts : Nat → OrderedSet Computation}
    (hchange : ∀ k i, body[k]? = some i → change i k = reuseAt (facts k) i)
    (hg : g.IsGraphOf name body) (hg' : g'.IsGraphOf name (replaceAll change body).1)
    (houtline : SameOutline body (replaceAll change body).1) : available.Below g' g where
  origin_eq := hg'.start_eq.trans hg.start_eq.symm
  flows_iff u v := by
    show ⟨u, v⟩ ∈ g'.edges ↔ ⟨u, v⟩ ∈ g.edges
    simp only [hg'.mem_edges, hg.mem_edges, houtline.length_eq, continues_congr houtline]
  extremal _ hf := hf
  leaving u x' x hx := by
    rcases u with - | - | k
    · rw [leaving_start hg', leaving_start hg]
      exact hx
    · rw [leaving_stop hg', leaving_stop hg]
      exact hx
    · cases hi : body[k]? with
      | none =>
        rw [Analysis.leaving_of_none _ _ (by rw [hg'.node_instr, getElem?_replaceAll, hi]; rfl),
          Analysis.leaving_of_none _ _ (by rw [hg.node_instr, hi]; rfl)]
        exact hx
      | some i =>
        have hi' : (replaceAll change body).1[k]? = some ((change i k).getD i) := by
          rw [getElem?_replaceAll, hi, Option.map_some]
        rw [leaving_instr hg' hi', leaving_instr hg hi]
        show ∀ f ∈ computeAt (k + 2) ((change i k).getD i) x', f ∈ computeAt (k + 2) i x
        cases hj : change i k with
        | none => exact computeAt_mono hx
        | some j =>
          intro f hf
          exact computeAt_reuseAt ((hchange k i hi).symm.trans hj) f (computeAt_mono hx f hf)

/-- With fewer results at hand no more can be reused. -/
theorem reuseAt_eq_none_of_subset {facts facts' : OrderedSet Computation} {i : Instr}
    (hsub : ∀ f ∈ facts', f ∈ facts) (h : reuseAt facts i = none) : reuseAt facts' i = none := by
  unfold reuseAt at h ⊢
  split
  case h_1 x value =>
    dsimp only at h
    split
    case isTrue hreusable =>
      rw [if_pos hreusable, Option.map_eq_none_iff, List.find?_eq_none] at h
      rw [Option.map_eq_none_iff, List.find?_eq_none]
      exact fun f hf => h f (hsub f hf)
    case isFalse => rfl
  case h_2 => rfl

/-- What a pass leaves behind has no result to reuse among the facts it looked at: a replaced
instruction computes nothing any more. -/
theorem reuseAt_replaceAll {facts : Nat → OrderedSet Computation}
    (hchange : ∀ k i, body[k]? = some i → change i k = reuseAt (facts k) i) {k : Nat} {i : Instr}
    (hi : (replaceAll change body).1[k]? = some i) : reuseAt (facts k) i = none := by
  rw [getElem?_replaceAll] at hi
  obtain ⟨i₀, hi₀, rfl⟩ := Option.map_eq_some_iff.1 hi
  cases hj : change i₀ k with
  | none => exact (hchange k i₀ hi₀).symm.trans hj
  | some j =>
    have hafter := (computes_reuseAt ((hchange k i₀ hi₀).symm.trans hj)).2
    rw [Option.getD_some, Option.eq_none_iff_forall_ne_some]
    intro j' hj'
    rw [(computes_reuseAt hj').1] at hafter
    cases hafter

/-- A pass that can reuse nothing leaves the procedure as it is. -/
theorem apply_reuse_of_eq_none {s : Solution Computation} (hg : FlowGraph.ofProcedure f = .ok g)
    (hs : available.solve g cap = .ok s)
    (h : ∀ k i, f.body[k]? = some i → reuseAt (s.factsAt (k + 2)) i = none) :
    Pass.reuse.apply f cap = .ok (f, 0) := by
  obtain ⟨change, hok⟩ : ∃ change, Pass.reuse.changes f cap = .ok change := by
    simp only [changes, hg, hs, bind, Except.bind, pure, Except.pure, Except.ok.injEq, exists_eq']
  obtain ⟨g₁, hg₁, s₁, hs₁, hchange⟩ := changes_eq_ok hok
  cases hg.symm.trans hg₁
  cases hs.symm.trans hs₁
  have hcount : (replaceAll change f.body).2 = 0 :=
    replaceAll_eq_zero.2 fun k i hi => (hchange k i hi).trans (h k i hi)
  simp only [apply, hok, bind, Except.bind, pure, Except.pure, hcount, replaceAll_eq_self hcount]

/-- A pass over a graph fails where its flow problem takes too long. -/
theorem apply_reuse_of_error {e : AnalysisError} (hg : FlowGraph.ofProcedure f = .ok g)
    (hs : available.solve g cap = .error e) : Pass.reuse.apply f cap = .error e := by
  simp only [apply, changes, hg, hs, bind, Except.bind]

/-- **Results are reused once.** If a procedure has been passed, whatever the cap, a second pass
over what came out replaces nothing and leaves it unchanged, for every cap from some number of
visits on. With a smaller cap it does not converge. -/
theorem apply_reuse_again (h : Pass.reuse.apply f cap = .ok (f', count)) :
    ∃ visits, ∀ cap', Pass.reuse.apply f' cap' =
      if visits ≤ cap' then .ok (f', 0)
      else .error (.notConverged "available-expressions" cap') := by
  have houtline := apply_sameOutline h
  obtain ⟨change, hchanges, rfl, -⟩ := apply_eq_replaceAll h
  obtain ⟨g, hg, s, hs, hchange⟩ := changes_eq_ok hchanges
  obtain ⟨g', hg'⟩ := exists_ofProcedure_iff.2
    (houtline.wellLabelled (exists_ofProcedure_iff.1 ⟨g, hg⟩))
  have hgraph := FlowGraph.ofProcedure_isGraphOf hg
  have hgraph' := FlowGraph.ofProcedure_isGraphOf hg'
  have hbelow := below_replaceAll hchange hgraph hgraph' houtline
  obtain ⟨visits, s', -, hok, herror⟩ :=
    Analysis.converges_of_inter (a := available) hgraph'.coherent rfl
  refine ⟨visits, fun cap' => ?_⟩
  split
  case isTrue hcap =>
    have hstable : available.IsStable g' s' :=
      isStable_of_isJoin (Analysis.isJoin_of_inter rfl g') hgraph'.coherent (hok cap' hcap)
    refine apply_reuse_of_eq_none hg' (hok cap' hcap) fun k i hi => ?_
    refine reuseAt_eq_none_of_subset (fun c hc => ?_) (reuseAt_replaceAll hchange hi)
    exact mem_factsAt_of_below hbelow rfl hgraph.coherent hstable hs hc
  case isFalse hcap =>
    exact apply_reuse_of_error hg' (herror cap' (Nat.lt_of_not_le hcap))

/-- A loop with jumps across each other. -/
def crossing : Procedure :=
  ⟨loopName, [], [.branch (.var "c") "LT", .assign (.var "x1") (.binary .add (.var "p") (.var "q")),
    .branch (.var "c") "LT2", .assign (.var "xg") (.binary .add (.var "p") (.var "q")), .jump "L0",
    .label "LT2", .label "L0", .label "J", .branch (.var "c") "J", .label "LT",
    .branch (.var "c") "L0"]⟩

/-- What a pass makes of it: the second sum is read from the variable of the first one. -/
def crossingReused : Procedure :=
  ⟨loopName, [], crossing.body.set 3 (.assign (.var "xg") (.var "x1"))⟩

/-- Of two equal sums on crossing ways one is reused, and nothing after that. -/
theorem apply_reuse_again_crossing :
    Pass.reuse.apply crossing 34 = .ok (crossingReused, 1) ∧
      ∃ visits, ∀ cap', Pass.reuse.apply crossingReused cap' =
        if visits ≤ cap' then .ok (crossingReused, 0)
        else .error (.notConverged "available-expressions" cap') := by
  have hreused : Pass.reuse.apply crossing 34 = .ok (crossingReused, 1) := by decide +kernel
  exact ⟨hreused, apply_reuse_again hreused⟩

/-- The cap that lets the first pass through may stop the second one: without the replaced sum the
facts settle later. -/
theorem crossing_needs_more_visits :
    Pass.reuse.apply crossing 34 = .ok (crossingReused, 1) ∧
      Pass.reuse.apply crossingReused 34 = .error (.notConverged "available-expressions" 34) ∧
      Pass.reuse.apply crossingReused 35 = .ok (crossingReused, 0) := by
  decide +kernel

end Pass

end ParLoop
