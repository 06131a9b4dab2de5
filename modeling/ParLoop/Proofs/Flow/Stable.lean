import Mathlib.Tactic.Tauto
import ParLoop.Flow.Solve
import ParLoop.Proofs.FlowGraph.Neighbours

/-!
# A solution is stable

When the worklist of a solver is empty, every flow has been carried: the facts at its target absorb
the facts that leave its source. The invariant is that a flow which has not been carried is still to
be visited.

* `Worklist.Pending` says which flows are still to be visited;
* `Analysis.leaving_of_enter`, `Analysis.leaving_of_leave` and `Analysis.leaving_of_not_crosses` say
  what leaves a node;
* `Analysis.IsJoin` lists the laws of a merge under which what was absorbed stays absorbed;
* `Analysis.Carried` is the equation of one flow, `Analysis.Arrives` what a visit makes of the facts
  at its target, `Progress.Invariant` the invariant of a run;
* `Analysis.solve_stable` is the equation of every flow for a solution;
* `Analysis.solve_run_induct`, `Analysis.solve_induct` and `Analysis.solve_inter_induct` are
  induction over the facts that a solver comes to.
-/

namespace ParLoop.Flow

/-! ### The worklist -/

namespace Worklist

/-- A flow is still to be visited, by itself or with its source. -/
def Pending (w : Worklist) (e : Edge) : Prop := e ∈ w.flows ∨ e.source ∈ w.nodes

theorem nextOfNodes_eq_none {flowsFrom : Nat → List Edge} {nodes : List Nat}
    (h : nextOfNodes flowsFrom nodes = none) : ∀ u ∈ nodes, flowsFrom u = [] := by
  induction nodes with
  | nil => simp
  | cons v rest ih =>
    intro u hu
    rw [nextOfNodes] at h
    split at h
    case h_1 hv =>
      rcases List.mem_cons.1 hu with rfl | hu
      · exact hv
      · exact ih h u hu
    case h_2 => cases h

theorem nextOfNodes_eq_some {flowsFrom : Nat → List Edge} {nodes : List Nat} {e : Edge}
    {w : Worklist} (h : nextOfNodes flowsFrom nodes = some (e, w)) {u : Nat} (hu : u ∈ nodes)
    {d : Edge} (hd : d ∈ flowsFrom u) : d = e ∨ d ∈ w.flows ∨ u ∈ w.nodes := by
  induction nodes with
  | nil => cases h
  | cons v rest ih =>
    rw [nextOfNodes] at h
    split at h
    case h_1 hv =>
      rcases List.mem_cons.1 hu with rfl | hu
      · rw [hv] at hd
        exact absurd hd List.not_mem_nil
      · exact ih h hu
    case h_2 e' es hv =>
      cases h
      rcases List.mem_cons.1 hu with rfl | hu
      · rw [hv] at hd
        exact (List.mem_cons.1 hd).imp id Or.inl
      · exact Or.inr (Or.inr hu)

/-- Where no flow is next, none is to be visited. -/
theorem not_pending_of_next {flowsFrom : Nat → List Edge} {w : Worklist}
    (h : w.next flowsFrom = none) {e : Edge} (he : e ∈ flowsFrom e.source) : ¬ w.Pending e := by
  unfold next at h
  split at h
  case h_1 => cases h
  case h_2 hw =>
    rintro (hp | hp)
    · rw [hw] at hp
      exact absurd hp List.not_mem_nil
    · rw [nextOfNodes_eq_none h _ hp] at he
      exact absurd he List.not_mem_nil

/-- Of the flows to be visited, only the next one leaves the worklist. -/
theorem pending_of_next {flowsFrom : Nat → List Edge} {w rest : Worklist} {e : Edge}
    (h : w.next flowsFrom = some (e, rest)) {d : Edge} (hd : d ∈ flowsFrom d.source)
    (hp : w.Pending d) : d = e ∨ rest.Pending d := by
  unfold next at h
  split at h
  case h_1 e' es hw =>
    cases h
    rcases hp with hp | hp
    · rw [hw] at hp
      exact (List.mem_cons.1 hp).imp id Or.inl
    · exact Or.inr (Or.inr hp)
  case h_2 hw =>
    rcases hp with hp | hp
    · rw [hw] at hp
      exact absurd hp List.not_mem_nil
    · exact nextOfNodes_eq_some h hp hd

/-- Every flow of the worklist leaves its source. -/
def Real (flowsFrom : Nat → List Edge) (w : Worklist) : Prop :=
  ∀ e ∈ w.flows, e ∈ flowsFrom e.source

theorem real_of_nextOfNodes {flowsFrom : Nat → List Edge}
    (hsource : ∀ u, ∀ e ∈ flowsFrom u, e.source = u) {nodes : List Nat} {e : Edge} {w : Worklist}
    (h : nextOfNodes flowsFrom nodes = some (e, w)) :
    e ∈ flowsFrom e.source ∧ w.Real flowsFrom := by
  induction nodes with
  | nil => cases h
  | cons v rest ih =>
    rw [nextOfNodes] at h
    split at h
    case h_1 => exact ih h
    case h_2 e' es hv =>
      cases h
      have hreal : ∀ d ∈ e :: es, d ∈ flowsFrom d.source := by
        intro d hd
        rw [← hv] at hd
        rw [hsource v d hd]
        exact hd
      exact ⟨hreal e (by simp), fun d hd => hreal d (List.mem_cons_of_mem _ hd)⟩

theorem Real.next {flowsFrom : Nat → List Edge}
    (hsource : ∀ u, ∀ e ∈ flowsFrom u, e.source = u) {w rest : Worklist} {e : Edge}
    (hw : w.Real flowsFrom) (h : w.next flowsFrom = some (e, rest)) :
    e ∈ flowsFrom e.source ∧ rest.Real flowsFrom := by
  unfold Worklist.next at h
  split at h
  case h_1 e' es hflows =>
    cases h
    refine ⟨hw e (by simp [hflows]), fun d hd => hw d ?_⟩
    rw [hflows]
    exact List.mem_cons_of_mem _ hd
  case h_2 => exact real_of_nextOfNodes hsource h

theorem Real.push {flowsFrom : Nat → List Edge}
    (hsource : ∀ u, ∀ e ∈ flowsFrom u, e.source = u) {w : Worklist} (hw : w.Real flowsFrom)
    (seed : Seed) (node : Nat) : (w.push seed flowsFrom node).Real flowsFrom := by
  unfold Worklist.push
  cases seed with
  | edges =>
    intro d hd
    rcases List.mem_append.1 hd with hd | hd
    · exact hw d hd
    · rw [hsource node d hd]
      exact hd
  | nodes =>
    dsimp only
    split
    · exact hw
    · exact hw

theorem Pending.push {w : Worklist} {e : Edge} (h : w.Pending e) (seed : Seed)
    (flowsFrom : Nat → List Edge) (node : Nat) : (w.push seed flowsFrom node).Pending e := by
  unfold Worklist.push
  cases seed with
  | edges => exact h.imp (List.mem_append_left _) id
  | nodes =>
    dsimp only
    split
    · exact h
    · exact h.imp id (List.mem_append_left _)

/-- After a push, every flow that leaves the node is to be visited. -/
theorem pending_push_self (w : Worklist) (seed : Seed) {flowsFrom : Nat → List Edge} {e : Edge}
    (he : e ∈ flowsFrom e.source) : (w.push seed flowsFrom e.source).Pending e := by
  unfold Worklist.push
  cases seed with
  | edges => exact Or.inl (List.mem_append_right _ he)
  | nodes =>
    dsimp only
    split
    case isTrue h => exact Or.inr h
    case isFalse => exact Or.inr (List.mem_append_right _ (by simp))

end Worklist

theorem Direction.source_of_mem_flowsFrom {d : Direction} {g : FlowGraph} {u : Nat} {e : Edge}
    (h : e ∈ d.flowsFrom g u) : e.source = u := by
  obtain ⟨v, -, rfl⟩ := List.mem_map.1 h
  rfl

namespace Analysis

variable {F : Type} [Ord F]

/-! ### What leaves a node -/

section

variable (a : Analysis F) {g : FlowGraph} {node : Nat} (facts : OrderedSet F)

/-- Into a callee go the facts about names that begin like those of its arguments. -/
theorem leaving_of_enter {home caller callee : String}
    (h : g.nodes[node]? = some ⟨home, .enter caller callee⟩) :
    a.leaving g node facts = facts.filter fun f =>
      (a.subject f).any fun x => (argumentPrefix callee).toList.isPrefixOf x.toList := by
  rw [leaving, h]

/-- From a callee come back the facts about its result. -/
theorem leaving_of_leave {home callee caller : String}
    (h : g.nodes[node]? = some ⟨home, .leave callee caller⟩) :
    a.leaving g node facts = facts.filter fun f => a.subject f == some (resultName callee) := by
  rw [leaving, h]

/-- Within a body the transfer function decides. -/
theorem leaving_of_not_crosses {n : Node} (h : g.nodes[node]? = some n) (hn : n.crosses = false) :
    a.leaving g node facts = a.transfer g node n facts := by
  rw [leaving, h]
  obtain ⟨home, kind⟩ := n
  cases kind with
  | enter _ _ | leave _ _ => cases hn
  | _ => rfl

theorem leaving_of_none (h : g.nodes[node]? = none) : a.leaving g node facts = facts := by
  rw [leaving, h]

/-- What leaves a node is what reaches it, the part of it that is about some names, or what the
transfer function says. -/
theorem leaving_forms (g : FlowGraph) (node : Nat) :
    (g.nodes[node]? = none ∧ a.leaving g node = id) ∨
    (∃ n p, g.nodes[node]? = some n ∧ n.crosses = true ∧
      a.leaving g node = OrderedSet.filter fun f => (a.subject f).any p) ∨
    ∃ n, g.nodes[node]? = some n ∧ n.crosses = false ∧ a.leaving g node = a.transfer g node n := by
  cases hn : g.nodes[node]? with
  | none => exact Or.inl ⟨rfl, funext fun x => a.leaving_of_none x hn⟩
  | some n =>
    obtain ⟨home, kind⟩ := n
    cases kind with
    | enter caller callee =>
      exact Or.inr (Or.inl ⟨_, _, rfl, rfl, funext fun x => a.leaving_of_enter x hn⟩)
    | leave callee caller =>
      refine Or.inr (Or.inl ⟨_, (· == resultName callee), rfl, rfl, funext fun x => ?_⟩)
      rw [a.leaving_of_leave x hn]
      congr 1
      funext f
      cases a.subject f <;> rfl
    | _ => exact Or.inr (Or.inr ⟨_, rfl, rfl, funext fun x => a.leaving_of_not_crosses x hn rfl⟩)

end

/-! ### Merging -/

/-- A set of facts absorbs another one when merging the other into it changes nothing. -/
def Absorbs (a : Analysis F) (stored incoming : OrderedSet F) : Prop :=
  a.merge stored incoming = stored

/-- The laws of a merge under which nothing that was absorbed is lost. Sets that do not absorb
themselves may exist, as long as no node lets one through. -/
structure IsJoin (a : Analysis F) (g : FlowGraph) : Prop where
  absorbs_merge : ∀ x y, a.Absorbs (a.merge x y) y
  merge_absorbs : ∀ x y z, a.Absorbs x y → a.Absorbs (a.merge x z) y
  merge_self : ∀ x y, a.Absorbs (a.merge x y) (a.merge x y)
  extremal_self : a.Absorbs (a.extremal g) (a.extremal g)
  leaving_self : ∀ node x, a.Absorbs x x → a.Absorbs (a.leaving g node x) (a.leaving g node x)

section

variable [Std.TransOrd F] [Std.LawfulEqOrd F]

/-- Union is a join. -/
theorem isJoin_of_union {a : Analysis F} (h : a.merge = OrderedSet.union) (g : FlowGraph) :
    a.IsJoin g where
  absorbs_merge x y := by
    ext f
    simp only [h, OrderedSet.mem_union]
    tauto
  merge_absorbs x y z hxy := by
    have hy : ∀ f ∈ y, f ∈ x := fun f hf => by
      rw [← show a.merge x y = x from hxy, h]
      exact OrderedSet.mem_union.2 (Or.inr hf)
    ext f
    simp only [h, OrderedSet.mem_union]
    have := hy f
    tauto
  merge_self x y := by
    ext f
    simp only [h, OrderedSet.mem_union]
    tauto
  extremal_self := by
    ext f
    simp [h]
  leaving_self node x _ := by
    ext f
    simp [h]

/-- Intersection is a join, of what is known less and less. -/
theorem isJoin_of_inter [DecidableEq F] {a : Analysis F} (h : a.merge = OrderedSet.inter)
    (g : FlowGraph) : a.IsJoin g where
  absorbs_merge x y := by
    ext f
    simp only [h, OrderedSet.mem_inter]
    tauto
  merge_absorbs x y z hxy := by
    have hy : ∀ f ∈ x, f ∈ y := fun f hf => by
      rw [← show a.merge x y = x from hxy, h] at hf
      exact (OrderedSet.mem_inter.1 hf).2
    ext f
    simp only [h, OrderedSet.mem_inter]
    have := hy f
    tauto
  merge_self x y := by
    ext f
    simp only [h, OrderedSet.mem_inter]
    tauto
  extremal_self := by
    ext f
    simp [h]
  leaving_self node x _ := by
    ext f
    simp [h]

end

end Analysis

/-! ### The invariant of a run -/

variable {F : Type} [Ord F]

theorem Direction.mem_flowsFrom {g : FlowGraph} (hg : g.Coherent) {d : Direction} {e : Edge} :
    e ∈ d.flowsFrom g e.source ↔ e ∈ g.edges.toList.map d.flow := by
  obtain ⟨u, v⟩ := e
  cases d with
  | forward =>
    have h : ⟨u, v⟩ ∈ Direction.forward.flowsFrom g u ↔ v ∈ g.successors u := by
      simp [flowsFrom]
    rw [h, hg.mem_successors]
    simp [flow]
  | backward =>
    have h : ⟨u, v⟩ ∈ Direction.backward.flowsFrom g u ↔ v ∈ g.predecessors u := by
      simp [flowsFrom]
    rw [h, hg.mem_predecessors]
    constructor
    · intro hm
      exact List.mem_map.2 ⟨⟨v, u⟩, by simpa using hm, rfl⟩
    · intro hm
      obtain ⟨⟨a, b⟩, hab, he⟩ := List.mem_map.1 hm
      cases he
      simpa using hab

theorem Direction.lt_size_of_mem_flowsFrom {g : FlowGraph} (hg : g.Coherent) {d : Direction}
    {e : Edge} (he : e ∈ d.flowsFrom g e.source) : e.source < g.size ∧ e.target < g.size := by
  obtain ⟨c, hc, rfl⟩ := List.mem_map.1 ((mem_flowsFrom hg).1 he)
  have := hg.lt_size c.source c.target (by simpa using hc)
  cases d with
  | forward => exact this
  | backward => exact this.symm

theorem Direction.origin_lt {g : FlowGraph} (hg : g.Coherent) (d : Direction) :
    d.origin g < g.size := by
  cases d with
  | forward => exact hg.start_lt
  | backward => exact hg.stop_lt

/-- The facts that reached a node so far. -/
def Progress.input? (s : Progress F) (node : Nat) : Option (OrderedSet F) := s.inputs[node]?.join

/-- What leaves the source of a flow is absorbed at its target. -/
def Analysis.Carried (a : Analysis F) (g : FlowGraph) (input? : Nat → Option (OrderedSet F))
    (e : Edge) : Prop :=
  ∀ x, input? e.source = some x →
    ∃ y, input? e.target = some y ∧ a.Absorbs y (a.leaving g e.source x)

/-- The facts at the target of a flow after the facts at its source were carried along it. -/
def Analysis.Arrives (a : Analysis F) (g : FlowGraph) (input? : Nat → Option (OrderedSet F))
    (e : Edge) (x z : OrderedSet F) : Prop :=
  input? e.target = none ∧ z = a.leaving g e.source x ∨
    ∃ y, input? e.target = some y ∧ z = a.merge y (a.leaving g e.source x)

/-- A flow that was not carried is still to be visited. -/
structure Progress.Invariant (a : Analysis F) (g : FlowGraph) (s : Progress F) : Prop where
  size_eq : s.inputs.size = g.size
  origin : ∃ x, s.input? (a.direction.origin g) = some x ∧ a.Absorbs x (a.extremal g)
  self : ∀ node x, s.input? node = some x → a.Absorbs x x
  real : s.worklist.Real (a.direction.flowsFrom g)
  flow : ∀ e ∈ a.direction.flowsFrom g e.source,
    s.worklist.Pending e ∨ a.Carried g s.input? e

namespace Analysis

variable {a : Analysis F} {g : FlowGraph}

theorem init_input? (hg : g.Coherent) (node : Nat) :
    (a.init g).input? node = if node = a.direction.origin g then some (a.extremal g) else none := by
  have ho := a.direction.origin_lt hg
  simp only [Progress.input?, init, Array.getElem?_setIfInBounds, Array.size_replicate]
  by_cases h : node = a.direction.origin g
  · simp [h, ho]
  · rw [if_neg (Ne.symm h), if_neg h, Array.getElem?_replicate]
    split <;> rfl

theorem init_real (hg : g.Coherent) :
    (a.init g).worklist.Real (a.direction.flowsFrom g) := by
  show (Worklist.init a.direction a.seed g).Real _
  unfold Worklist.init
  cases a.seed with
  | edges => exact fun e he => (Direction.mem_flowsFrom hg).2 he
  | nodes => exact fun e he => absurd he List.not_mem_nil

theorem init_invariant (ha : a.IsJoin g) (hg : g.Coherent) : (a.init g).Invariant a g where
  size_eq := by simp [init]
  origin := ⟨a.extremal g, by rw [init_input? hg, if_pos rfl], ha.extremal_self⟩
  self node x hx := by
    rw [init_input? hg] at hx
    split at hx
    · cases hx
      exact ha.extremal_self
    · cases hx
  real := init_real hg
  flow e he := by
    left
    show (Worklist.init a.direction a.seed g).Pending e
    unfold Worklist.init
    cases a.seed with
    | edges => exact Or.inl ((Direction.mem_flowsFrom hg).1 he)
    | nodes => exact Or.inr (List.mem_range.2 (Direction.lt_size_of_mem_flowsFrom hg he).1)

namespace Arrives

variable {input? : Nat → Option (OrderedSet F)} {e : Edge} {x z : OrderedSet F}

/-- What was absorbed at a node is absorbed after facts arrived. -/
theorem absorbs (hz : a.Arrives g input? e x z) (ha : a.IsJoin g) {node : Nat}
    {y w : OrderedSet F} (hy : input? node = some y) (hyw : a.Absorbs y w) :
    ∃ y', (if node = e.target then some z else input? node) = some y' ∧ a.Absorbs y' w := by
  split
  case isTrue hnode =>
    refine ⟨z, rfl, ?_⟩
    rcases hz with ⟨hnone, -⟩ | ⟨y', hy', rfl⟩
    · rw [hnode, hnone] at hy
      cases hy
    · rw [hnode, hy'] at hy
      cases hy
      exact ha.merge_absorbs _ _ _ hyw
  case isFalse => exact ⟨y, hy, hyw⟩

theorem absorbs_self (hz : a.Arrives g input? e x z) (ha : a.IsJoin g) (hx : a.Absorbs x x) :
    a.Absorbs z z := by
  rcases hz with ⟨-, rfl⟩ | ⟨y, -, rfl⟩
  · exact ha.leaving_self _ _ hx
  · exact ha.merge_self _ _

theorem absorbs_leaving (hz : a.Arrives g input? e x z) (ha : a.IsJoin g) (hx : a.Absorbs x x) :
    a.Absorbs z (a.leaving g e.source x) := by
  rcases hz with ⟨-, rfl⟩ | ⟨y, -, rfl⟩
  · exact ha.leaving_self _ _ hx
  · exact ha.absorbs_merge _ _

end Arrives

/-- A flow that was not carried is the next one or still to be visited. -/
theorem flow_of_next {s : Progress F} (hs : s.Invariant a g) {e : Edge} {rest : Worklist}
    (hnext : s.worklist.next (a.direction.flowsFrom g) = some (e, rest)) {d : Edge}
    (hd : d ∈ a.direction.flowsFrom g d.source) :
    d = e ∨ rest.Pending d ∨ a.Carried g s.input? d := by
  rcases hs.flow d hd with hp | hc
  · exact (Worklist.pending_of_next hnext hd hp).imp id Or.inl
  · exact Or.inr (Or.inr hc)

variable [DecidableEq F]

/-- A visit changes nothing but the worklist if what arrives is absorbed already. -/
theorem visit_of_absorbs {s : Progress F} {e : Edge} {x y : OrderedSet F}
    (hx : s.input? e.source = some x) (hy : s.input? e.target = some y)
    (h : a.Absorbs y (a.leaving g e.source x)) (rest : Worklist) :
    (a.visit g s e rest).input? = s.input? ∧ (a.visit g s e rest).worklist = rest := by
  have h : a.merge y (a.leaving g e.source x) = y := h
  unfold Progress.input? at hx hy
  simp only [visit, hx, hy, arrive, h, if_true]
  exact ⟨rfl, trivial⟩

/-- What a visit does: nothing arrives, or what arrives is absorbed already, or the facts at the
target become the merged ones and its flows are to be visited. -/
theorem visit_cases (hg : g.Coherent) {s : Progress F} (hs : s.inputs.size = g.size) {e : Edge}
    (he : e ∈ a.direction.flowsFrom g e.source) (rest : Worklist) :
    (s.input? e.source = none ∧ (a.visit g s e rest).input? = s.input? ∧
      (a.visit g s e rest).worklist = rest) ∨
    (∃ x y, s.input? e.source = some x ∧ s.input? e.target = some y ∧
      a.Absorbs y (a.leaving g e.source x) ∧ (a.visit g s e rest).input? = s.input? ∧
      (a.visit g s e rest).worklist = rest) ∨
    (∃ x z, s.input? e.source = some x ∧
      a.Arrives g s.input? e x z ∧
      (∀ node, (a.visit g s e rest).input? node =
        if node = e.target then some z else s.input? node) ∧
      (a.visit g s e rest).worklist = rest.push a.seed (a.direction.flowsFrom g) e.target) := by
  have htarget : e.target < s.inputs.size := by
    rw [hs]
    exact (Direction.lt_size_of_mem_flowsFrom hg he).2
  cases hx : s.input? e.source with
  | none =>
    refine Or.inl ⟨rfl, ?_⟩
    unfold Progress.input? at hx
    simp only [visit, hx]
    exact ⟨rfl, trivial⟩
  | some x =>
    right
    cases harrive : a.arrive (s.input? e.target) (a.leaving g e.source x) with
    | none =>
      left
      unfold arrive at harrive
      split at harrive
      · cases harrive
      case h_2 y hy =>
        dsimp only at harrive
        split at harrive
        case isTrue habsorbed =>
          exact ⟨x, y, rfl, hy, habsorbed, visit_of_absorbs hx hy habsorbed rest⟩
        case isFalse => cases harrive
    | some z =>
      refine Or.inr ⟨x, z, rfl, ?_, ?_⟩
      · unfold arrive at harrive
        split at harrive
        case h_1 hy =>
          cases harrive
          exact Or.inl ⟨hy, rfl⟩
        case h_2 y hy =>
          dsimp only at harrive
          split at harrive
          · cases harrive
          · cases harrive
            exact Or.inr ⟨y, hy, rfl⟩
      · unfold Progress.input? at hx harrive
        simp only [visit, hx, harrive, Progress.input?, Array.getElem?_setIfInBounds, htarget,
          if_true, and_true]
        intro node
        by_cases h : node = e.target
        · simp [h]
        · rw [if_neg (Ne.symm h), if_neg h]

theorem size_visit (s : Progress F) (e : Edge) (rest : Worklist) :
    (a.visit g s e rest).inputs.size = s.inputs.size := by
  unfold visit
  dsimp only
  split
  · rfl
  · split
    · rfl
    · simp

/-- A visit keeps the invariant. -/
theorem visit_invariant (ha : a.IsJoin g) (hg : g.Coherent) {s : Progress F}
    (hs : s.Invariant a g) {e : Edge} {rest : Worklist}
    (hnext : s.worklist.next (a.direction.flowsFrom g) = some (e, rest)) :
    (a.visit g s e rest).Invariant a g := by
  have hsize : (a.visit g s e rest).inputs.size = g.size := by rw [size_visit, hs.size_eq]
  have hsource : ∀ u, ∀ d ∈ a.direction.flowsFrom g u, d.source = u :=
    fun u d hd => Direction.source_of_mem_flowsFrom hd
  obtain ⟨he, hrest⟩ := hs.real.next hsource hnext
  -- A visit that changes no facts finds its flow carried.
  have hsame (hc : a.Carried g s.input? e) (hin : (a.visit g s e rest).input? = s.input?)
      (hw : (a.visit g s e rest).worklist = rest) : (a.visit g s e rest).Invariant a g := by
    refine ⟨hsize, hin ▸ hs.origin, hin ▸ hs.self, by rw [hw]; exact hrest, fun d hd => ?_⟩
    rw [hin, hw]
    rcases flow_of_next hs hnext hd with rfl | hd
    · exact Or.inr hc
    · exact hd
  rcases visit_cases hg hs.size_eq he rest with ⟨hx, hin, hw⟩ | ⟨x, y, hx, hy, hxy, hin, hw⟩ |
    ⟨x, z, hx, hz, hin, hw⟩
  · refine hsame (fun x' hx' => ?_) hin hw
    rw [hx] at hx'
    cases hx'
  · refine hsame (fun x' hx' => ⟨y, hy, ?_⟩) hin hw
    rw [hx] at hx'
    cases hx'
    exact hxy
  · refine ⟨hsize, ?_, fun node w hnode => ?_, hw ▸ hrest.push hsource _ _, fun d hd => ?_⟩
    · obtain ⟨y, hy, hye⟩ := hs.origin
      rw [hin]
      exact hz.absorbs ha hy hye
    · rw [hin] at hnode
      split at hnode
      · cases hnode
        exact hz.absorbs_self ha (hs.self _ _ hx)
      · exact hs.self _ _ hnode
    · rw [hw]
      -- The flows of the target are pushed, so that only those of other nodes matter.
      by_cases hd' : d.source = e.target
      · left
        rw [← hd']
        exact Worklist.pending_push_self _ _ hd
      rcases flow_of_next hs hnext hd with rfl | hp | hc
      · right
        intro w hw'
        rw [hin, if_neg hd', hx] at hw'
        cases hw'
        exact ⟨z, by rw [hin, if_pos rfl], hz.absorbs_leaving ha (hs.self _ _ hx)⟩
      · exact Or.inl (hp.push _ _ _)
      · right
        intro w hw'
        rw [hin, if_neg hd'] at hw'
        obtain ⟨y, hy, hyw⟩ := hc w hw'
        rw [hin]
        exact hz.absorbs ha hy hyw

/-- What every visit keeps holds at the end of a run, where no flow is left to be visited. -/
theorem run_induct {P : Progress F → Prop}
    (hvisit : ∀ s e rest, P s → s.worklist.next (a.direction.flowsFrom g) = some (e, rest) →
      P (a.visit g s e rest)) {allowed : Nat} {s t : Progress F} (hs : P s)
    (h : a.run g allowed s = some t) :
    P t ∧ t.worklist.next (a.direction.flowsFrom g) = none := by
  induction allowed generalizing s with
  | zero =>
    unfold run at h
    split at h
    case h_1 hnext =>
      cases h
      exact ⟨hs, hnext⟩
    case h_2 => cases h
  | succ allowed ih =>
    unfold run at h
    split at h
    case h_1 hnext =>
      cases h
      exact ⟨hs, hnext⟩
    case h_2 e rest hnext => exact ih (hvisit s e rest hs hnext) h

/-- The inputs of a solution are those at the end of a run. -/
theorem solve_eq_ok {cap : Nat} {r : Solution F} (h : a.solve g cap = .ok r) :
    ∃ t, a.run g cap (a.init g) = some t ∧ r.input? = t.input? := by
  unfold solve at h
  split at h
  case h_1 => cases h
  case h_2 t ht =>
    cases h
    exact ⟨t, ht, rfl⟩

/-- **A solution is stable.** What leaves the source of a flow is absorbed at its target, and the
origin absorbs the facts where the flow starts. -/
theorem solve_stable (ha : a.IsJoin g) (hg : g.Coherent) {cap : Nat} {r : Solution F}
    (h : a.solve g cap = .ok r) :
    (∃ x, r.input? (a.direction.origin g) = some x ∧ a.Absorbs x (a.extremal g)) ∧
      ∀ e ∈ a.direction.flowsFrom g e.source, a.Carried g r.input? e := by
  obtain ⟨t, ht, hr⟩ := solve_eq_ok h
  obtain ⟨hinv, hnext⟩ := run_induct (fun s e rest hs => visit_invariant ha hg hs)
    (init_invariant ha hg) ht
  rw [hr]
  refine ⟨hinv.origin, fun e he => ?_⟩
  exact (hinv.flow e he).resolve_left (Worklist.not_pending_of_next hnext he)

end Analysis

/-! ### What holds of all facts -/

/-- A state of a solver whose facts have a property. -/
structure Progress.Satisfies (s : Progress F) (a : Analysis F) (g : FlowGraph)
    (I : (Nat → Option (OrderedSet F)) → Prop) : Prop where
  size_eq : s.inputs.size = g.size
  real : s.worklist.Real (a.direction.flowsFrom g)
  holds : I s.input?

/-- A property of the facts at a node that the facts at the origin have, and that is kept along
every flow and by merging. -/
structure Analysis.Keeps (a : Analysis F) (g : FlowGraph) (P : Nat → OrderedSet F → Prop) :
    Prop where
  origin : P (a.direction.origin g) (a.extremal g)
  flow : ∀ e ∈ a.direction.flowsFrom g e.source, ∀ x, P e.source x →
    P e.target (a.leaving g e.source x)
  merge : ∀ node x y, P node x → P node y → P node (a.merge x y)

namespace Analysis

variable {a : Analysis F} {g : FlowGraph} {I : (Nat → Option (OrderedSet F)) → Prop}

theorem init_satisfies (hg : g.Coherent)
    (hinit : I fun node => if node = a.direction.origin g then some (a.extremal g) else none) :
    (a.init g).Satisfies a g I := by
  refine ⟨by simp [init], init_real hg, ?_⟩
  rw [funext (init_input? hg)]
  exact hinit

variable [DecidableEq F]

/-- A visit keeps what is kept when facts arrive at the target of a flow. -/
theorem visit_satisfies (hg : g.Coherent)
    (harrive : ∀ input? e x z, I input? → e ∈ a.direction.flowsFrom g e.source →
      input? e.source = some x → a.Arrives g input? e x z →
      I fun node => if node = e.target then some z else input? node) {s : Progress F}
    (hs : s.Satisfies a g I) {e : Edge} {rest : Worklist}
    (hnext : s.worklist.next (a.direction.flowsFrom g) = some (e, rest)) :
    (a.visit g s e rest).Satisfies a g I := by
  have hsource : ∀ u, ∀ d ∈ a.direction.flowsFrom g u, d.source = u :=
    fun u d hd => Direction.source_of_mem_flowsFrom hd
  obtain ⟨he, hrest⟩ := hs.real.next hsource hnext
  have hsize : (a.visit g s e rest).inputs.size = g.size := by rw [size_visit, hs.size_eq]
  rcases visit_cases hg hs.size_eq he rest with ⟨-, hin, hw⟩ | ⟨-, -, -, -, -, hin, hw⟩ |
    ⟨x, z, hx, hz, hin, hw⟩
  · exact ⟨hsize, by rw [hw]; exact hrest, hin ▸ hs.holds⟩
  · exact ⟨hsize, by rw [hw]; exact hrest, hin ▸ hs.holds⟩
  · refine ⟨hsize, by rw [hw]; exact hrest.push hsource _ _, ?_⟩
    rw [funext hin]
    exact harrive s.input? e x z hs.holds he hx hz

/-- **Induction on a run.** What holds where only the origin has facts, and is kept when facts
arrive at the target of a flow, holds of the facts of a solution. -/
theorem solve_run_induct (hg : g.Coherent) {I : (Nat → Option (OrderedSet F)) → Prop}
    (hinit : I fun node => if node = a.direction.origin g then some (a.extremal g) else none)
    (harrive : ∀ input? e x z, I input? → e ∈ a.direction.flowsFrom g e.source →
      input? e.source = some x → a.Arrives g input? e x z →
      I fun node => if node = e.target then some z else input? node) {cap : Nat} {r : Solution F}
    (h : a.solve g cap = .ok r) : I r.input? := by
  obtain ⟨t, ht, hr⟩ := solve_eq_ok h
  rw [hr]
  exact (run_induct (fun s e rest hs => visit_satisfies hg harrive hs)
    (init_satisfies hg hinit) ht).1.holds

namespace Keeps

variable {P : Nat → OrderedSet F → Prop}

omit [DecidableEq F] in
theorem holds_init (h : a.Keeps g P) : ∀ node x,
    (if node = a.direction.origin g then some (a.extremal g) else none) = some x → P node x := by
  intro node x hx
  split at hx
  case isTrue hnode =>
    cases hx
    exact hnode ▸ h.origin
  case isFalse => cases hx

omit [DecidableEq F] in
theorem holds_arrive (h : a.Keeps g P) (input? : Nat → Option (OrderedSet F)) (e : Edge)
    (x z : OrderedSet F) (hI : ∀ node x, input? node = some x → P node x)
    (he : e ∈ a.direction.flowsFrom g e.source) (hx : input? e.source = some x)
    (hz : a.Arrives g input? e x z) :
    ∀ node w, (if node = e.target then some z else input? node) = some w → P node w := by
  intro node w hw
  split at hw
  case isTrue hnode =>
    cases hw
    have harrived := h.flow e he x (hI _ _ hx)
    rcases hz with ⟨-, rfl⟩ | ⟨y, hy, rfl⟩
    · exact hnode ▸ harrived
    · exact hnode ▸ h.merge _ _ _ (hI _ _ hy) harrived
  case isFalse => exact hI _ _ hw

end Keeps

/-- **Induction on a solution.** What holds of the facts at the origin, and is kept along every flow
and by merging, holds of the facts at every node. -/
theorem solve_induct {P : Nat → OrderedSet F → Prop} (hg : g.Coherent)
    (horigin : P (a.direction.origin g) (a.extremal g))
    (hflow : ∀ e ∈ a.direction.flowsFrom g e.source, ∀ x, P e.source x →
      P e.target (a.leaving g e.source x))
    (hmerge : ∀ node x y, P node x → P node y → P node (a.merge x y)) {cap : Nat}
    {r : Solution F} (h : a.solve g cap = .ok r) {node : Nat} {x : OrderedSet F}
    (hx : r.input? node = some x) : P node x := by
  have hkeeps : a.Keeps g P := ⟨horigin, hflow, hmerge⟩
  exact solve_run_induct (I := fun input? => ∀ node x, input? node = some x → P node x) hg
    hkeeps.holds_init hkeeps.holds_arrive h node x hx

/-- **Induction on a solution by intersection.** Facts that are there at the origin and kept along
every flow are there at every node. -/
theorem solve_inter_induct {Q : Nat → Prop} {S : Nat → F → Prop} (hg : g.Coherent)
    (hmerge : a.merge = OrderedSet.inter)
    (horigin : Q (a.direction.origin g) ∧ ∀ f, S (a.direction.origin g) f → f ∈ a.extremal g)
    (hflow : ∀ e ∈ a.direction.flowsFrom g e.source, Q e.source →
      ∀ x, (∀ f, S e.source f → f ∈ x) →
        Q e.target ∧ ∀ f, S e.target f → f ∈ a.leaving g e.source x)
    {cap : Nat} {r : Solution F} (h : a.solve g cap = .ok r) {node : Nat} {x : OrderedSet F}
    (hx : r.input? node = some x) {f : F} (hf : S node f) : f ∈ x := by
  let P : Nat → OrderedSet F → Prop := fun node x => Q node ∧ ∀ f, S node f → f ∈ x
  have hmerged : ∀ node x y, P node x → P node y → P node (a.merge x y) := by
    rintro node x y ⟨hQ, hx⟩ ⟨-, hy⟩
    refine ⟨hQ, fun f hf => ?_⟩
    rw [hmerge]
    exact OrderedSet.mem_inter.2 ⟨hx f hf, hy f hf⟩
  have hP : P node x :=
    solve_induct hg horigin (fun e he x hx => hflow e he hx.1 x hx.2) hmerged h hx
  exact hP.2 f hf

end Analysis

/-- A flow problem is refused only for the number of its visits. -/
theorem solve_eq_error [DecidableEq F] {a : Analysis F} {g : FlowGraph} {cap : Nat}
    {e : AnalysisError} (h : a.solve g cap = .error e) : e = .notConverged a.name cap := by
  unfold Analysis.solve at h
  split at h <;> cases h
  rfl

end ParLoop.Flow
