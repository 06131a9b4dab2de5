import ParLoop.Proofs.Flow.Justified
import ParLoop.Proofs.Flow.Paths

/-!
# Reaching definitions

The definitions of a variable that loop dependence knows at a node are the places where the variable
may have got the value that it has there: the instructions from which a way leads to the node
without another definition, and for the counter of the loop the start (`mem_definitionsOf_iff`).
Kinds are lost where paths meet and may be out of date; definitions are neither.
-/

namespace ParLoop

namespace FlowGraph

/-- A way of at least one edge from a node to another one, given by the nodes between them. -/
inductive Way (g : FlowGraph) (u : Nat) : List Nat → Nat → Prop where
  | edge {v : Nat} (he : ⟨u, v⟩ ∈ g.edges) : Way g u [] v
  | step {ns : List Nat} {v w : Nat} (h : Way g u ns v) (he : ⟨v, w⟩ ∈ g.edges) :
      Way g u (ns ++ [v]) w

/-- A value that a variable got at a node may be the one that it has at another node. The counter of
a loop gets its value at the start. -/
def Reaches (g : FlowGraph) (counter x : String) (d v : Nat) : Prop :=
  (g.defined? d = some x ∧ (∃ ns, g.Path ns d) ∧
    ∃ ns, g.Way d ns v ∧ ∀ n ∈ ns, g.defined? n ≠ some x) ∨
  d = g.start ∧ x = counter ∧ ∃ ns, g.Path ns v ∧ ∀ n ∈ ns, g.defined? n ≠ some x

variable {g : FlowGraph} {counter x : String} {d u v : Nat}

theorem Reaches.step (h : g.Reaches counter x d u) (hu : g.defined? u ≠ some x)
    (he : ⟨u, v⟩ ∈ g.edges) : g.Reaches counter x d v := by
  have hclear : ∀ {ns : List Nat}, (∀ n ∈ ns, g.defined? n ≠ some x) →
      ∀ n ∈ ns ++ [u], g.defined? n ≠ some x := by
    intro ns hns n hn
    rcases List.mem_append.1 hn with hn | hn
    · exact hns n hn
    · exact List.mem_singleton.1 hn ▸ hu
  rcases h with ⟨hd, hpath, ns, hway, hns⟩ | ⟨hd, hx, ns, hpath, hns⟩
  · exact Or.inl ⟨hd, hpath, ns ++ [u], hway.step he, hclear hns⟩
  · exact Or.inr ⟨hd, hx, ns ++ [u], hpath.step he, hclear hns⟩

end FlowGraph

namespace Flow

open Descriptor

variable {g : FlowGraph} {name : String} {body : List Instr} {counter x : String} {d v : Nat}
  {cap : Nat} {r : Solution Descriptor} {X : OrderedSet Descriptor}

/-- Every definition that is known at a node reaches it. -/
theorem reaches_of_definition_mem (hg : g.IsGraphOf name body)
    (hr : (dependence counter).solve g cap = .ok r) (hX : r.input? v = some X)
    (hd : ⟨x, .definition d⟩ ∈ X) : g.Reaches counter x d v := by
  -- A definition counts from where a path leads, so paths are part of the invariant.
  let P : Nat → OrderedSet Descriptor → Prop := fun v X => (∃ ns, g.Path ns v) ∧
    ∀ x d, ⟨x, .definition d⟩ ∈ X → g.Reaches counter x d v
  refine (Analysis.solve_induct (P := P) hg.coherent ⟨⟨[], .start⟩, fun x d hd => ?_⟩
    (fun e he X hX => ?_) (fun v X Y hX hY => ⟨hX.1, fun x d hd => ?_⟩) hr hX).2 x d hd
  · obtain ⟨hx, -, hstart⟩ := mem_counterFacts hd
    exact Or.inr ⟨hstart d rfl, hx, [], .start, by simp⟩
  · obtain ⟨⟨ns, hns⟩, hX⟩ := hX
    have he := (mem_flowsFrom_dependence hg).1 he
    refine ⟨⟨_, hns.step he⟩, fun x d hd => ?_⟩
    by_cases hu : g.defined? e.source = some x
    · obtain rfl := (definition_mem_leaving hg hu).1 hd
      exact Or.inl ⟨hu, ⟨ns, hns⟩, [], .edge he, by simp⟩
    · exact (hX x d ((mem_leaving_of_ne hg hu).1 hd)).step hu he
  · rcases definition_mem_merge.1 hd with hd | hd
    · exact hX.2 x d hd
    · exact hY.2 x d hd

/-- Where a path leads there are facts. -/
theorem exists_input?_of_path (hg : g.IsGraphOf name body)
    (hr : (dependence counter).solve g cap = .ok r) {ns : List Nat} (h : g.Path ns v) :
    ∃ X, r.input? v = some X :=
  Option.isSome_iff_exists.1 ((isReached_iff (isJoin_dependence counter g) hg.coherent hr v).2
    (exists_path_iff.1 ⟨ns, h⟩))

/-- A path on which a variable gets no value. -/
theorem passes_of_path {ns : List Nat} (h : g.Path ns v) (hns : ∀ n ∈ ns, g.defined? n ≠ some x) :
    Relation.ReflTransGen (Passes g x) g.start v := by
  induction h with
  | start => exact .refl
  | @step ns u v _ he ih =>
    rw [List.forall_mem_append] at hns
    exact (ih hns.1).tail ⟨he, hns.2 u List.mem_cons_self⟩

/-- A way between whose ends a variable gets no value. -/
theorem passes_of_way {ns : List Nat} (h : g.Way d ns v) (hns : ∀ n ∈ ns, g.defined? n ≠ some x) :
    ∃ u, ⟨d, u⟩ ∈ g.edges ∧ Relation.ReflTransGen (Passes g x) u v := by
  induction h with
  | edge he => exact ⟨_, he, .refl⟩
  | @step ns v w _ he ih =>
    rw [List.forall_mem_append] at hns
    obtain ⟨u, hu, hpasses⟩ := ih hns.1
    exact ⟨u, hu, hpasses.tail ⟨he, hns.2 v List.mem_cons_self⟩⟩

/-- The definition at a node is known behind it, as long as there is no other. -/
theorem definition_mem_of_way (hg : g.IsGraphOf name body)
    (hr : (dependence counter).solve g cap = .ok r) (hd : g.defined? d = some x)
    (hX : r.input? d = some X) {ns : List Nat} (hway : g.Way d ns v)
    (hns : ∀ n ∈ ns, g.defined? n ≠ some x) :
    ∃ Y, r.input? v = some Y ∧ ⟨x, .definition d⟩ ∈ Y := by
  obtain ⟨u, hu, hpasses⟩ := passes_of_way hway hns
  obtain ⟨Z, hZ, hdef, -⟩ := absorbed_of_edge hg hr hu hX
  obtain ⟨Y, hY, hkept, -⟩ := mem_of_passes hg hr hpasses hZ
  exact ⟨Y, hY, hkept d (hdef x d ((definition_mem_leaving hg hd).2 rfl))⟩

/-- The value of the counter at the start is known as long as it gets no other. -/
theorem definition_mem_of_path (hg : g.IsGraphOf name body)
    (hr : (dependence counter).solve g cap = .ok r) {ns : List Nat} (hpath : g.Path ns v)
    (hns : ∀ n ∈ ns, g.defined? n ≠ some counter) :
    ∃ Y, r.input? v = some Y ∧ ⟨counter, .definition g.start⟩ ∈ Y := by
  obtain ⟨⟨Z, hZ, habsorbs⟩, -⟩ :=
    Analysis.solve_stable (isJoin_dependence counter g) hg.coherent hr
  have hmem : ⟨counter, .definition g.start⟩ ∈ Z :=
    (merge_eq_left_iff.1 habsorbs).1 counter g.start (mem_redefine.2 (Or.inr (Or.inl rfl)))
  obtain ⟨Y, hY, hkept, -⟩ := mem_of_passes hg hr (passes_of_path hpath hns) hZ
  exact ⟨Y, hY, hkept _ hmem⟩

/-- **The definitions known at a node are those that reach it**, in a loop whose body calls
nothing. -/
theorem mem_definitionsOf_iff {p : Program} {interprocedural : Bool} {calls : CallGraph}
    (hcalls : ∀ i ∈ p.body, i.hasCall = false)
    (hg : FlowGraph.ofProgram p interprocedural = .ok (g, calls))
    (hr : (dependence p.counter).solve g cap = .ok r) (hX : r.input? v = some X) (x : String)
    (d : Nat) : d ∈ definitionsOf X x ↔ g.Reaches p.counter x d v := by
  have hg := FlowGraph.ofProgram_isGraphOf hcalls hg
  rw [mem_definitionsOf]
  refine ⟨reaches_of_definition_mem hg hr hX, ?_⟩
  rintro (⟨hd, ⟨ms, hms⟩, ns, hway, hns⟩ | ⟨rfl, rfl, ns, hpath, hns⟩)
  · obtain ⟨Z, hZ⟩ := exists_input?_of_path hg hr hms
    obtain ⟨Y, hY, hmem⟩ := definition_mem_of_way hg hr hd hZ hway hns
    exact Option.some_inj.1 (hY.symm.trans hX) ▸ hmem
  · obtain ⟨Y, hY, hmem⟩ := definition_mem_of_path hg hr hpath hns
    exact Option.some_inj.1 (hY.symm.trans hX) ▸ hmem

/-- A loop that goes back over assignments of what it reads. -/
def circlingLoop : Program :=
  .ofBody "i" [.assign (.var "x") (.int 0), .label "back", .assign (.var "y") (.var "x"),
    .assign (.var "x") (.var "i"), .assign (.var "i") (.int 0), .jump "back"]

/-- Where `x` is read, it has its first value or the one of a round before, and so has the
counter. -/
theorem mem_definitionsOf_circlingLoop :
    ∃ g calls r X, FlowGraph.ofProgram circlingLoop false = .ok (g, calls) ∧
      (dependence "i").solve g 1000 = .ok r ∧ r.input? 4 = some X ∧
      (∀ d, g.Reaches "i" "x" d 4 ↔ d = 2 ∨ d = 5) ∧
      ∀ d, g.Reaches "i" "i" d 4 ↔ d = 0 ∨ d = 6 := by
  obtain ⟨g, calls, r, -, X, hg, hr, -, -, hX, hQ⟩ := exists_edge_facts circlingLoop 1000 3 4
    (fun _ _ X => decide (definitionsOf X "x" = .ofList [2, 5] ∧
      definitionsOf X "i" = .ofList [0, 6])) (by decide +kernel)
  obtain ⟨hx, hi⟩ := of_decide_eq_true hQ
  have hreaches : ∀ x d, d ∈ definitionsOf X x ↔ g.Reaches "i" x d 4 :=
    mem_definitionsOf_iff (p := circlingLoop) (by decide) hg hr hX
  refine ⟨g, calls, r, X, hg, hr, hX, fun d => ?_, fun d => ?_⟩
  · rw [← hreaches, hx]
    simp
  · rw [← hreaches, hi]
    simp

end Flow

end ParLoop
