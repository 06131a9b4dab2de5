import ParLoop.Proofs.Descriptor.Zero
import ParLoop.Proofs.Flow.Justified

/-!
# Adding zero

Loop dependence evaluates an assignment each time that facts arrive at it, and keeps what it found
before. So the kinds known of a variable come from several evaluations of one assignment, between
which the facts may have changed. They agree on zero all the same: the facts at a node always speak
of the same definition of a variable, the first one that arrived, as long as they say anything else
of it (`Ledger`).

So an expression that is found to be zero is found to be nothing else but loop independent
(`zeroLike_evaluate`), and adding zero on either side changes what is known of an expression only if
it was not known to be loop independent (`evaluate_add_zero`).
-/

namespace ParLoop.Flow

open Descriptor

variable {g : FlowGraph} {name : String} {body : List Instr} {counter x : String} {u v n : Nat}
  {k : Kind} {X Z : OrderedSet Descriptor} {input? : Nat → Option (OrderedSet Descriptor)}

/-- The kinds that leave an assignment are those of its value. -/
theorem exists_of_kind_mem_leaving (hg : g.IsGraphOf name body) (hu : g.defined? u = some x)
    (hk : ⟨x, .kind k⟩ ∈ (dependence counter).leaving g u X) :
    ∃ e, g.instr? u = some (.assign (.var x) e) ∧ k ∈ evaluate X e := by
  by_cases hassign : ∃ e, g.instr? u = some (.assign (.var x) e)
  · obtain ⟨e, he⟩ := hassign
    obtain ⟨m, hm, rfl⟩ := hg.instr?_eq_some.1 he
    rw [leaving_instr hg hm] at hk
    have hk : ⟨x, .kind k⟩ ∈ redefine X x (m + 2) (evaluate X e) := hk
    rw [← mem_kindsOf, kindsOf_redefine, if_pos rfl] at hk
    exact ⟨e, he, hk⟩
  · exact absurd hk (kind_not_mem_leaving hg hu (not_exists.1 hassign))

/-! ### What was found before -/

/-- What a run has come to so far: the kinds found at the definitions of each variable, and the
definition of a variable that reached a node first. -/
structure Ledger where
  found : String → Nat → Kind → Prop
  first : Nat → String → Option Nat

namespace Ledger

variable {l : Ledger}

/-- The kinds that the facts at a node may say of a variable. -/
def Known (l : Ledger) (n : Nat) (x : String) (k : Kind) : Prop :=
  ∃ d, l.first n x = some d ∧ l.found x d k

/-- The definition of a variable that leaves a node first. -/
def behind (l : Ledger) (g : FlowGraph) (u : Nat) (x : String) : Option Nat :=
  if g.defined? u = some x then some u else l.first u x

/-- The ledger after some facts have been carried from a node to another one. -/
def carry (l : Ledger) (g : FlowGraph) (u v : Nat) (X : OrderedSet Descriptor) : Ledger where
  found x d k := l.found x d k ∨
    d = u ∧ ∃ e, g.instr? u = some (.assign (.var x) e) ∧ k ∈ evaluate X e
  first n x := if n = v then (l.first v x).or (l.behind g u x) else l.first n x

/-- A ledger accounts for the facts at all nodes. What was found at an assignment was found there
from kinds that are still known. -/
structure Accounts (l : Ledger) (g : FlowGraph) (input? : Nat → Option (OrderedSet Descriptor)) :
    Prop where
  zeroLike : ∀ x d, ZeroLike (l.found x d)
  arrived : ∀ n x d, l.first n x = some d → ∃ X, input? n = some X ∧ ⟨x, .definition d⟩ ∈ X
  reached : ∀ n X x d, input? n = some X → ⟨x, .definition d⟩ ∈ X → (l.first n x).isSome = true
  held : ∀ n X x k, input? n = some X → ⟨x, .kind k⟩ ∈ X → l.Known n x k
  evaluated : ∀ d x e k, g.instr? d = some (.assign (.var x) e) → l.found x d k →
    Yields (l.Known d) e k

theorem Accounts.zeroLike_known (h : l.Accounts g input?) (n : Nat) (x : String) :
    ZeroLike (l.Known n x) := by
  cases hfirst : l.first n x with
  | none =>
    rintro ⟨d, hd, -⟩
    rw [hfirst] at hd
    cases hd
  | some d =>
    refine (h.zeroLike x d).mono ?_
    rintro k ⟨d', hd', hk⟩
    rw [hfirst] at hd'
    cases hd'
    exact hk

/-- Nothing that is known gets lost. -/
theorem Known.carry (h : l.Known n x k) : (l.carry g u v X).Known n x k := by
  obtain ⟨d, hfirst, hfound⟩ := h
  refine ⟨d, ?_, Or.inl hfound⟩
  show (if n = v then _ else _) = _
  split
  case isTrue hn => rw [← hn, hfirst, Option.some_or]
  case isFalse => exact hfirst

/-! ### What leaves a node -/

section

variable (hg : g.IsGraphOf name body) (h : l.Accounts g input?) (hX : input? u = some X)

include hg h hX

theorem Accounts.definition_mem_leaving {d : Nat} (hd : l.behind g u x = some d) :
    ⟨x, .definition d⟩ ∈ (dependence counter).leaving g u X := by
  unfold behind at hd
  split at hd
  case isTrue hu =>
    cases hd
    exact (Flow.definition_mem_leaving hg hu).2 rfl
  case isFalse hu =>
    obtain ⟨X', hX', hmem⟩ := h.arrived u x d hd
    cases Option.some_inj.1 (hX'.symm.trans hX)
    exact (mem_leaving_of_ne hg hu).2 hmem

theorem Accounts.isSome_behind {d : Nat}
    (hd : ⟨x, .definition d⟩ ∈ (dependence counter).leaving g u X) :
    (l.behind g u x).isSome = true := by
  unfold behind
  split
  case isTrue => rfl
  case isFalse hu => exact h.reached u X x d hX ((mem_leaving_of_ne hg hu).1 hd)

theorem Accounts.known_behind (v : Nat)
    (hk : ⟨x, .kind k⟩ ∈ (dependence counter).leaving g u X) :
    ∃ d, l.behind g u x = some d ∧ (l.carry g u v X).found x d k := by
  unfold behind
  split
  case isTrue hu =>
    obtain ⟨e, he, hke⟩ := exists_of_kind_mem_leaving hg hu hk
    exact ⟨u, rfl, Or.inr ⟨rfl, e, he, hke⟩⟩
  case isFalse hu =>
    obtain ⟨d, hd, hfound⟩ := h.held u X x k hX ((mem_leaving_of_ne hg hu).1 hk)
    exact ⟨d, hd, Or.inl hfound⟩

/-! ### One flow -/

omit hg in
theorem Accounts.zeroLike_carry (v : Nat) (x : String) (d : Nat) :
    ZeroLike ((l.carry g u v X).found x d) := by
  by_cases hassign : d = u ∧ ∃ e, g.instr? u = some (.assign (.var x) e)
  · -- What was found before and what is found now are both found from what is known.
    obtain ⟨rfl, e, he⟩ := hassign
    refine (zeroLike_yields (h.zeroLike_known d) e).mono ?_
    rintro k (hfound | ⟨-, e', he', hk⟩)
    · exact h.evaluated d x e k he hfound
    · rw [he] at he'
      cases he'
      exact ⟨X, fun y j => h.held d X y j hX, hk⟩
  · refine (h.zeroLike x d).mono ?_
    rintro k (hfound | ⟨rfl, e, he, -⟩)
    · exact hfound
    · exact absurd ⟨rfl, e, he⟩ hassign

omit hg in
theorem Accounts.evaluated_carry (v : Nat) {d : Nat} {e : Expr}
    (he : g.instr? d = some (.assign (.var x) e)) (hk : (l.carry g u v X).found x d k) :
    Yields ((l.carry g u v X).Known d) e k := by
  obtain hfound | ⟨rfl, e', he', hk⟩ := hk
  · obtain ⟨facts, hfacts, hk⟩ := h.evaluated d x e k he hfound
    exact ⟨facts, fun y j hj => (hfacts y j hj).carry, hk⟩
  · rw [he] at he'
    cases he'
    exact ⟨X, fun y j hj => (h.held d X y j hX hj).carry, hk⟩

/-- A kind that has arrived at a node is of the definition that arrived there first. -/
theorem Accounts.known_of_arrived
    (hZ : input? v = none ∧ Z = (dependence counter).leaving g u X ∨
      ∃ Y, input? v = some Y ∧ Z = merge Y ((dependence counter).leaving g u X))
    (hk : ⟨x, .kind k⟩ ∈ Z) : (l.carry g u v X).Known v x k := by
  -- What has just arrived is of the first definition, unless another one was there before.
  have hcarried (hkL : ⟨x, .kind k⟩ ∈ (dependence counter).leaving g u X)
      (hsame : ∀ d d', l.behind g u x = some d → l.first v x = some d' → d' = d) :
      (l.carry g u v X).Known v x k := by
    obtain ⟨d, hd, hfound⟩ := h.known_behind hg hX v hkL
    refine ⟨d, ?_, hfound⟩
    show (if v = v then _ else _) = _
    rw [if_pos rfl, hd]
    cases hfirst : l.first v x with
    | none => rfl
    | some d' => rw [Option.some_or, hsame d d' hd hfirst]
  obtain ⟨hnone, rfl⟩ | ⟨Y, hY, rfl⟩ := hZ
  · refine hcarried hk fun d d' _ hd' => ?_
    obtain ⟨Y, hY, -⟩ := h.arrived v x d' hd'
    rw [hnone] at hY
    cases hY
  · obtain ⟨hkY | hkL, honce⟩ := kind_mem_merge.1 hk
    · exact (h.held v Y x k hY hkY).carry
    · refine hcarried hkL fun d d' hd hd' => ?_
      obtain ⟨Y', hY', hmem⟩ := h.arrived v x d' hd'
      cases Option.some_inj.1 (hY'.symm.trans hY)
      exact honce d' d (OrderedSet.mem_union.2 (Or.inl hmem))
        (OrderedSet.mem_union.2 (Or.inr (h.definition_mem_leaving hg hX hd)))

/-- **A ledger goes on to account for all facts** when some are carried along a flow. -/
theorem Accounts.carry
    (hZ : input? v = none ∧ Z = (dependence counter).leaving g u X ∨
      ∃ Y, input? v = some Y ∧ Z = merge Y ((dependence counter).leaving g u X)) :
    (l.carry g u v X).Accounts g fun node => if node = v then some Z else input? node := by
  obtain ⟨hdata, hnew, hold⟩ := Flow.arrived hZ
  refine ⟨h.zeroLike_carry hX v, fun n x d hd => ?_, fun n W x d hW hd => ?_,
    fun n W x k hW hk => ?_, fun d x e k he hk => h.evaluated_carry hX v he hk⟩
  · by_cases hn : n = v
    · subst hn
      refine ⟨Z, if_pos rfl, ?_⟩
      have hd : (l.first n x).or (l.behind g u x) = some d := (if_pos rfl).symm.trans hd
      obtain hd | ⟨-, hd⟩ := Option.or_eq_some_iff.1 hd
      · obtain ⟨Y, hY, hmem⟩ := h.arrived n x d hd
        exact hold Y x d hY hmem
      · exact hnew x d (h.definition_mem_leaving hg hX hd)
    · obtain ⟨W, hW, hmem⟩ := h.arrived n x d ((if_neg hn).symm.trans hd)
      exact ⟨W, (if_neg hn).trans hW, hmem⟩
  · by_cases hn : n = v
    · subst hn
      cases (if_pos rfl).symm.trans hW
      show Option.isSome (if n = n then _ else _) = true
      rw [if_pos rfl, Option.isSome_or, Bool.or_eq_true]
      obtain ⟨Y, hY, hmem⟩ | hmem := hdata _ hd
      · exact Or.inl (h.reached n Y x d hY hmem)
      · exact Or.inr (h.isSome_behind hg hX hmem)
    · show Option.isSome (if n = v then _ else _) = true
      rw [if_neg hn]
      exact h.reached n W x d ((if_neg hn).symm.trans hW) hd
  · by_cases hn : n = v
    · subst hn
      cases (if_pos rfl).symm.trans hW
      exact h.known_of_arrived hg hX hZ hk
    · exact (h.held n W x k ((if_neg hn).symm.trans hW) hk).carry

end

/-- The ledger where only the counter is known. -/
def ofCounter (counter : String) (start : Nat) : Ledger where
  found x d k := d = start ∧ ⟨x, .kind k⟩ ∈ counterFacts counter start
  first n x := if n = start ∧ x = counter then some start else none

theorem accounts_ofCounter (hg : g.IsGraphOf name body) (counter : String) :
    (ofCounter counter g.start).Accounts g fun node =>
      if node = g.start then some (counterFacts counter g.start) else none := by
  have hfirst : (ofCounter counter g.start).first g.start counter = some g.start :=
    if_pos ⟨rfl, rfl⟩
  have hdefinition : ⟨counter, .definition g.start⟩ ∈ counterFacts counter g.start :=
    mem_redefine.2 (Or.inr (Or.inl rfl))
  refine ⟨fun x d hzero => ?_, fun n x d hd => ?_, fun n X x d hX hd => ?_, fun n X x k hX hk => ?_,
    fun d x e k he hk => ?_⟩
  · obtain ⟨hempty, -⟩ | hmark | ⟨k, hk, hmark⟩ := mem_redefine.1 hzero.2
    · exact absurd hempty (OrderedSet.not_mem_empty _)
    · cases hmark
    · cases hmark
      exact absurd hk (by decide)
  · by_cases h : n = g.start ∧ x = counter
    · obtain ⟨rfl, rfl⟩ := h
      cases hfirst.symm.trans hd
      exact ⟨_, if_pos rfl, hdefinition⟩
    · cases (if_neg h).symm.trans hd
  · by_cases hn : n = g.start
    · cases (if_pos hn).symm.trans hX
      rw [hn, (mem_counterFacts hd).1, hfirst]
      rfl
    · cases (if_neg hn).symm.trans hX
  · by_cases hn : n = g.start
    · cases (if_pos hn).symm.trans hX
      refine ⟨g.start, ?_, rfl, hk⟩
      rw [hn, (mem_counterFacts hk).1, hfirst]
    · cases (if_neg hn).symm.trans hX
  · -- The start has no instruction.
    rw [hk.1, FlowGraph.instr?, hg.start_eq, hg.node_start] at he
    cases he

end Ledger

/-! ### What is known at a node -/

variable {cap : Nat} {r : Solution Descriptor}

theorem zeroLike_input (hg : g.IsGraphOf name body) (hr : (dependence counter).solve g cap = .ok r)
    (hX : r.input? n = some X) (x : String) : ZeroLike fun k => ⟨x, .kind k⟩ ∈ X := by
  obtain ⟨l, hl⟩ : ∃ l : Ledger, l.Accounts g r.input? := by
    refine Analysis.solve_run_induct (I := fun input? => ∃ l : Ledger, l.Accounts g input?)
      hg.coherent ⟨_, Ledger.accounts_ofCounter hg counter⟩ ?_ hr
    rintro input? e X Z ⟨l, hl⟩ - hX hZ
    exact ⟨_, hl.carry hg hX hZ⟩
  exact (hl.zeroLike_known n x).mono fun k hk => hl.held n X x k hX hk

theorem zeroLike_leaving (hg : g.IsGraphOf name body)
    (hX : ∀ x, ZeroLike fun k => ⟨x, .kind k⟩ ∈ X) (u : Nat) (x : String) :
    ZeroLike fun k => ⟨x, .kind k⟩ ∈ (dependence counter).leaving g u X := by
  by_cases hu : g.defined? u = some x
  · intro hzero k hk
    obtain ⟨e, he, hzero⟩ := exists_of_kind_mem_leaving hg hu hzero
    obtain ⟨e', he', hk⟩ := exists_of_kind_mem_leaving hg hu hk
    cases he.symm.trans he'
    exact zeroLike_evaluate hX e hzero k hk
  · exact (hX x).mono fun k => (mem_leaving_of_ne hg hu).1

theorem zeroLike_of_solve (hg : g.IsGraphOf name body)
    (hr : (dependence counter).solve g cap = .ok r)
    (hX : r.input? n = some X ∨ r.output? n = some X) (e : Expr) :
    ZeroLike (· ∈ evaluate X e) := by
  refine zeroLike_evaluate ?_ e
  obtain hX | hX := hX
  · exact zeroLike_input hg hr hX
  · rw [output?_eq hr] at hX
    obtain ⟨Y, hY, rfl⟩ := Option.map_eq_some_iff.1 hX
    exact zeroLike_leaving hg (zeroLike_input hg hr hY) n

/-- **Zero may be added on either side.** In every set of facts that loop dependence comes to in a
program without calls, before a node or behind it, `0 + e` is as `e` is, and so is `e + 0`, unless
nothing is known of `e` but that it is zero: then the sum is also known to be loop independent. -/
theorem evaluate_add_zero {p : Program} {interprocedural : Bool} {calls : CallGraph}
    (hcalls : ∀ i ∈ p.body, i.hasCall = false)
    (hg : FlowGraph.ofProgram p interprocedural = .ok (g, calls))
    (hr : (dependence p.counter).solve g cap = .ok r)
    (hX : r.input? n = some X ∨ r.output? n = some X) (e : Expr) :
    evaluate X (.binary .add (.int 0) e) = evaluate X e ∧
      evaluate X (.binary .add e (.int 0)) =
        if evaluate X e = .ofList [.zero] then .ofList [.zero, .loopIndependent]
        else evaluate X e := by
  refine ⟨?_, ?_⟩
  · show (Kinds.ofInt 0).add (evaluate X e) = evaluate X e
    exact Kinds.add_of_zero_left (Kinds.zero_mem_ofInt.2 rfl)
  · have hgraph := FlowGraph.ofProgram_isGraphOf hcalls hg
    exact (zeroLike_of_solve hgraph hr hX e).add_ofInt_zero

/-- A loop that assigns a product with zero. -/
def zeroLoop : Program :=
  .ofBody "i" [.assign (.var "x") (.binary .multiply (.var "i") (.int 0))]

/-- Behind the assignment, `x` is known to be zero and `x + 0` to be loop independent besides. -/
theorem evaluate_add_zero_zeroLoop :
    ∃ g calls r X, FlowGraph.ofProgram zeroLoop false = .ok (g, calls) ∧
      (dependence "i").solve g 1000 = .ok r ∧ r.output? 2 = some X ∧
      evaluate X (.var "x") = .ofList [.zero] ∧
      evaluate X (.binary .add (.int 0) (.var "x")) = .ofList [.zero] ∧
      evaluate X (.binary .add (.var "x") (.int 0)) = .ofList [.zero, .loopIndependent] := by
  obtain ⟨g, calls, r, X, -, hg, hr, -, hX, -, hQ⟩ := exists_edge_facts zeroLoop 1000 2 1
    (fun _ X _ => decide (evaluate X (.var "x") = .ofList [.zero])) (by decide +kernel)
  have hx := of_decide_eq_true hQ
  obtain ⟨hleft, hright⟩ := evaluate_add_zero (by decide) hg hr (Or.inr hX) (.var "x")
  rw [hx] at hleft hright
  exact ⟨g, calls, r, X, hg, hr, hX, hx, hleft, hright.trans (if_pos rfl)⟩

/-- Adding zero is not always without effect: a product with zero is not known to be loop
independent, the sum of the product and zero is. -/
theorem zeroLoop_add_zero_ne :
    Listing.parse "loop i \x7b x = i * 0; \x7d" = .ok zeroLoop ∧
      (∀ i ∈ zeroLoop.body, i.hasCall = false) ∧
      ∃ g calls r X, FlowGraph.ofProgram zeroLoop false = .ok (g, calls) ∧
        (dependence "i").solve g 1000 = .ok r ∧ r.input? 2 = some X ∧
        evaluate X (.binary .add (.binary .multiply (.var "i") (.int 0)) (.int 0)) ≠
          evaluate X (.binary .multiply (.var "i") (.int 0)) := by
  refine ⟨by decide +kernel, by decide, ?_⟩
  obtain ⟨g, calls, r, -, X, hg, hr, -, -, hX, hQ⟩ := exists_edge_facts zeroLoop 1000 0 2
    (fun _ _ X =>
      decide (evaluate X (.binary .add (.binary .multiply (.var "i") (.int 0)) (.int 0)) ≠
        evaluate X (.binary .multiply (.var "i") (.int 0)))) (by decide +kernel)
  exact ⟨g, calls, r, X, hg, hr, hX, of_decide_eq_true hQ⟩

end ParLoop.Flow
