import ParLoop.Proofs.Flow.Origins

/-!
# No jump back on the way

If every edge on a way to a node leads from an earlier node to a later one (`FlowGraph.OnwardTo`),
a worklist goes through the nodes on these ways in order (`Worklist.InOrder`): when the flows of one
of them are visited, no facts will arrive at it or before it any more. What loop dependence finds
there is then what it finds in the end (`found_of_solve`).
-/

namespace ParLoop

/-- Every edge on a way to a node leads to a later node. -/
def FlowGraph.OnwardTo (g : FlowGraph) (u : Nat) : Prop :=
  ∀ a b, ⟨a, b⟩ ∈ g.edges → Relation.ReflTransGen (fun a b => ⟨a, b⟩ ∈ g.edges) b u → a < b

namespace Flow

/-! ### The order of visits -/

namespace Worklist

variable {flowsFrom : Nat → List Edge} {w rest : Worklist} {e : Edge} {R : Nat → Prop}

/-- The sources of the flows to be visited, in the order of the visits. -/
def sources (flowsFrom : Nat → List Edge) (w : Worklist) : List Nat :=
  w.flows.map (·.source) ++ w.nodes.filter fun n => !(flowsFrom n).isEmpty

/-- Of some nodes, the flows are visited in the order of their sources, and every node that comes
after one still to be visited is in the list. -/
structure InOrder (flowsFrom : Nat → List Edge) (R : Nat → Prop) (w : Worklist) : Prop where
  sorted : (w.sources flowsFrom).Pairwise fun m n => R m → R n → m ≤ n
  listed : ∀ t, R t → t ∈ w.nodes ∨ ∀ n ∈ w.sources flowsFrom, R n → t ≤ n

/-- The first flow of a list of nodes belongs to the first node with a flow. -/
theorem nextOfNodes_eq_append {nodes : List Nat}
    (h : nextOfNodes flowsFrom nodes = some (e, w)) :
    ∃ skipped node, nodes = skipped ++ node :: w.nodes ∧ flowsFrom node = e :: w.flows ∧
      ∀ n ∈ skipped, flowsFrom n = [] := by
  induction nodes with
  | nil => cases h
  | cons v nodes ih =>
    rw [nextOfNodes] at h
    split at h
    case h_1 hv =>
      obtain ⟨skipped, node, rfl, hnode, hskipped⟩ := ih h
      exact ⟨v :: skipped, node, rfl, hnode, List.forall_mem_cons.2 ⟨hv, hskipped⟩⟩
    case h_2 hv =>
      cases h
      exact ⟨[], v, rfl, hv, fun _ h => absurd h List.not_mem_nil⟩

/-- The next visit takes the first source, and some visits of the same source may follow it. -/
theorem exists_sources_eq (hsource : ∀ u, ∀ e ∈ flowsFrom u, e.source = u)
    (h : w.next flowsFrom = some (e, rest)) :
    ∃ same tail, w.sources flowsFrom = e.source :: tail ∧
      rest.sources flowsFrom = same ++ tail ∧ (∀ n ∈ same, n = e.source) ∧
      ∀ t ∈ w.nodes, flowsFrom t ≠ [] → t ∈ rest.nodes ∨ t = e.source := by
  unfold next at h
  split at h
  case h_1 e' es hflows =>
    cases h
    -- Some flows of the last node are left.
    refine ⟨[], _, ?_, (List.nil_append _).symm, ?_, fun t ht _ => Or.inl ht⟩
    · rw [sources, hflows]
      rfl
    · simp
  case h_2 hflows =>
    -- The list is taken up to its first node with a flow.
    obtain ⟨skipped, node, hnodes, hnode, hskipped⟩ := nextOfNodes_eq_append h
    have hall : ∀ d ∈ e :: rest.flows, d.source = node := fun d hd => hsource node d (hnode ▸ hd)
    have he : e.source = node := hall e List.mem_cons_self
    have hfilter : skipped.filter (fun n => !(flowsFrom n).isEmpty) = [] :=
      List.filter_eq_nil_iff.2 fun n hn => by simp [hskipped n hn]
    refine ⟨rest.flows.map (·.source), _, ?_, rfl, fun n hn => ?_, fun t ht hflow => ?_⟩
    · rw [sources, hflows, hnodes, List.filter_append, hfilter, List.filter_cons_of_pos, he]
      · rfl
      · simp [hnode]
    · obtain ⟨d, hd, rfl⟩ := List.mem_map.1 hn
      rw [he, hall d (List.mem_cons_of_mem _ hd)]
    · rw [hnodes] at ht
      obtain ht | ht := List.mem_append.1 ht
      · exact absurd (hskipped t ht) hflow
      · exact (List.mem_cons.1 ht).symm.imp_right fun h => h.trans he.symm

/-- The order is kept by a visit: what is left comes after it, and later nodes are still listed. -/
theorem InOrder.next (hsource : ∀ u, ∀ e ∈ flowsFrom u, e.source = u)
    (hflow : ∀ t, R t → flowsFrom t ≠ []) (hw : w.InOrder flowsFrom R)
    (h : w.next flowsFrom = some (e, rest)) :
    rest.InOrder flowsFrom R ∧ e.source ∈ w.sources flowsFrom ∧
      (∀ n ∈ rest.sources flowsFrom, R e.source → R n → e.source ≤ n) ∧
      (∀ n ∈ rest.sources flowsFrom, n ∈ w.sources flowsFrom) ∧
      ∀ t, R t → R e.source → e.source < t → t ∈ rest.nodes := by
  obtain ⟨same, tail, hsources, hrest, hsame, hnodes⟩ := exists_sources_eq hsource h
  obtain ⟨hfirst, htail⟩ := List.pairwise_cons.1 (hsources ▸ hw.sorted)
  have hmem : e.source ∈ w.sources flowsFrom := by simp [hsources]
  have hcases : ∀ n ∈ rest.sources flowsFrom, n = e.source ∨ n ∈ tail := by
    intro n hn
    rw [hrest] at hn
    exact (List.mem_append.1 hn).imp_left (hsame n)
  have hle : ∀ n ∈ rest.sources flowsFrom, R e.source → R n → e.source ≤ n := by
    intro n hn he hRn
    obtain rfl | hn := hcases n hn
    · exact Nat.le_refl _
    · exact hfirst n hn he hRn
  have hsub : ∀ n ∈ rest.sources flowsFrom, n ∈ w.sources flowsFrom := by
    intro n hn
    rw [hsources]
    exact List.mem_cons.2 (hcases n hn)
  refine ⟨⟨?_, fun t ht => ?_⟩, hmem, hle, hsub, fun t ht he hlt => ?_⟩
  · rw [hrest]
    refine List.pairwise_append.2 ⟨?_, htail, fun m hm n hn => ?_⟩
    · refine List.pairwise_of_forall_mem_list fun m hm n hn _ _ => ?_
      exact Nat.le_of_eq ((hsame m hm).trans (hsame n hn).symm)
    · rw [hsame m hm]
      exact hfirst n hn
  · obtain hlisted | hbefore := hw.listed t ht
    · refine (hnodes t hlisted (hflow t ht)).imp_right fun heq n hn => ?_
      subst heq
      exact hle n hn ht
    · exact Or.inr fun n hn => hbefore n (hsub n hn)
  · obtain hlisted | hbefore := hw.listed t ht
    · exact (hnodes t hlisted (hflow t ht)).resolve_right (by omega)
    · have := hbefore _ hmem he
      omega

/-- The order is kept when facts arrive at another node, or at one that is in the list. -/
theorem InOrder.push (hw : w.InOrder flowsFrom R) {t : Nat} (ht : R t → t ∈ w.nodes) :
    (w.push .nodes flowsFrom t).InOrder flowsFrom R ∧
      ∀ n ∈ (w.push .nodes flowsFrom t).sources flowsFrom, R n → n ∈ w.sources flowsFrom := by
  unfold Worklist.push
  dsimp only
  split
  case isTrue => exact ⟨hw, fun n hn _ => hn⟩
  case isFalse hnew =>
    have hout : ¬R t := fun h => hnew (ht h)
    -- The list gets longer only by `t`, which is none of the nodes whose order counts.
    have hsources : ∃ new, Worklist.sources flowsFrom ⟨w.flows, w.nodes ++ [t]⟩ =
        w.sources flowsFrom ++ new ∧ ∀ n ∈ new, ¬R n := by
      refine ⟨[t].filter fun n => !(flowsFrom n).isEmpty, ?_, fun n hn => ?_⟩
      · rw [sources, sources, List.filter_append, List.append_assoc]
      · rw [List.mem_singleton.1 (List.mem_filter.1 hn).1]
        exact hout
    obtain ⟨new, hsources, hnew⟩ := hsources
    have hold : ∀ n ∈ w.sources flowsFrom ++ new, R n → n ∈ w.sources flowsFrom := by
      intro n hn hRn
      exact (List.mem_append.1 hn).resolve_right fun h => hnew n h hRn
    rw [hsources]
    refine ⟨⟨?_, fun n hn => ?_⟩, hold⟩
    · rw [hsources]
      refine List.pairwise_append.2 ⟨hw.sorted, ?_, fun m _ n hn _ hRn => absurd hRn (hnew n hn)⟩
      exact List.pairwise_of_forall_mem_list fun m hm _ _ hRm => absurd hRm (hnew m hm)
    · rw [hsources]
      refine (hw.listed n hn).imp (List.mem_append_left _) fun hbefore m hm hRm => ?_
      exact hbefore m (hold m hm hRm) hRm

theorem inOrder_range {size : Nat} (hR : ∀ t, R t → t < size) :
    Worklist.InOrder flowsFrom R ⟨[], List.range size⟩ where
  sorted := (List.pairwise_lt_range.imp fun h _ _ => Nat.le_of_lt h).filter _
  listed t ht := Or.inl (List.mem_range.2 (hR t ht))

end Worklist

/-! ### Loop dependence -/

open Descriptor

variable {g : FlowGraph} {name : String} {body : List Instr} {counter x : String} {u v d : Nat}
  {k : Kind} {X Y : OrderedSet Descriptor} {cap : Nat} {r : Solution Descriptor} {R : Nat → Prop}

/-- The edges from a node, which are the flows of a forward problem. -/
abbrev edgesFrom (g : FlowGraph) : Nat → List Edge := Direction.forward.flowsFrom g

theorem mem_edgesFrom (hg : g.IsGraphOf name body) : ⟨u, v⟩ ∈ edgesFrom g u ↔ ⟨u, v⟩ ∈ g.edges :=
  (Direction.flows_iff hg.coherent).symm

/-- Nodes from which control goes on, and to which it comes from earlier ones of them only. -/
structure Onward (g : FlowGraph) (R : Nat → Prop) : Prop where
  flow : ∀ t, R t → edgesFrom g t ≠ []
  source : ∀ a b, ⟨a, b⟩ ∈ g.edges → R b → R a ∧ a < b

/-- The nodes on the ways to a node that control goes on from. -/
theorem onward_of_onwardTo (hg : g.IsGraphOf name body) (hu : g.OnwardTo u)
    (he : ⟨u, v⟩ ∈ g.edges) :
    Onward g fun t => Relation.ReflTransGen (fun a b => ⟨a, b⟩ ∈ g.edges) t u where
  flow t ht := by
    obtain rfl | ⟨b, hb, -⟩ := ht.cases_head
    · exact List.ne_nil_of_mem ((mem_edgesFrom hg).2 he)
    · exact List.ne_nil_of_mem ((mem_edgesFrom hg).2 hb)
  source a b hab hb := ⟨hb.head hab, hu a b hab hb⟩

theorem Onward.lt_size (hR : Onward g R) (hg : g.IsGraphOf name body) {t : Nat} (ht : R t) :
    t < g.size := by
  obtain ⟨e, he⟩ := List.exists_mem_of_ne_nil _ (hR.flow t ht)
  have hsource := Direction.source_of_mem_flowsFrom he
  rw [← hsource] at he ⊢
  exact (Direction.lt_size_of_mem_flowsFrom hg.coherent he).1

/-- The definitions held at the nodes do not come after a node still to be visited. -/
def Settled (g : FlowGraph) (R : Nat → Prop) (w : Worklist)
    (input? : Nat → Option (OrderedSet Descriptor)) : Prop :=
  ∀ u X x d, input? u = some X → ⟨x, .definition d⟩ ∈ X → R d →
    ∀ n ∈ w.sources (edgesFrom g), R n → d ≤ n

/-- Every kind at a node is found at a definition that reached the node. -/
def Found (counter : String) (g : FlowGraph) (R : Nat → Prop)
    (input? : Nat → Option (OrderedSet Descriptor)) : Prop :=
  ∀ u X x k, input? u = some X → ⟨x, .kind k⟩ ∈ X → ∃ d, ⟨x, .definition d⟩ ∈ X ∧
    (R d → ∃ Z, input? d = some Z ∧ ⟨x, .kind k⟩ ∈ (dependence counter).leaving g d Z)

/-- What the visits keep. -/
structure Orderly (counter : String) (g : FlowGraph) (R : Nat → Prop) (s : Progress Descriptor) :
    Prop where
  size_eq : s.inputs.size = g.size
  real : s.worklist.Real (edgesFrom g)
  inOrder : s.worklist.InOrder (edgesFrom g) R
  settled : Settled g R s.worklist s.input?
  found : Found counter g R s.input?

theorem orderly_init (hg : g.IsGraphOf name body) (hR : Onward g R) :
    Orderly counter g R ((dependence counter).init g) := by
  have hinput := Analysis.init_input? (a := dependence counter) hg.coherent
  have hstart : ∀ {u X}, ((dependence counter).init g).input? u = some X →
      u = g.start ∧ X = counterFacts counter g.start := by
    intro u X hX
    rw [hinput] at hX
    split at hX
    case isTrue hu => exact ⟨hu, (Option.some_inj.1 hX).symm⟩
    case isFalse => cases hX
  refine ⟨by simp [Analysis.init], Analysis.init_real hg.coherent,
    Worklist.inOrder_range fun t ht => hR.lt_size hg ht, fun u X x d hX hd _ n _ _ => ?_,
    fun u X x k hX hk => ?_⟩
  · obtain ⟨rfl, rfl⟩ := hstart hX
    rw [(mem_counterFacts hd).2.2 d rfl, hg.start_eq]
    exact Nat.zero_le n
  · obtain ⟨rfl, rfl⟩ := hstart hX
    refine ⟨g.start, (mem_counterFacts hk).2.1, fun _ => ⟨_, hX, ?_⟩⟩
    rw [leaving_start_eq hg]
    exact hk

/-- What is at a node after facts have arrived was there or has arrived, and no definition is
lost. -/
theorem arrived {L Z : OrderedSet Descriptor} {stored : Option (OrderedSet Descriptor)}
    (hZ : stored = none ∧ Z = L ∨ ∃ Y, stored = some Y ∧ Z = merge Y L) :
    (∀ D ∈ Z, (∃ Y, stored = some Y ∧ D ∈ Y) ∨ D ∈ L) ∧
      (∀ x n, ⟨x, .definition n⟩ ∈ L → ⟨x, .definition n⟩ ∈ Z) ∧
      ∀ Y x n, stored = some Y → ⟨x, .definition n⟩ ∈ Y → ⟨x, .definition n⟩ ∈ Z := by
  obtain ⟨rfl, rfl⟩ | ⟨Y, rfl, rfl⟩ := hZ
  · exact ⟨fun D hD => Or.inr hD, fun _ _ h => h, fun Y x n hY => by cases hY⟩
  · refine ⟨fun D hD => ?_, fun x n hn => ?_, fun Y' x n hY hn => ?_⟩
    · exact (mem_merge.1 hD).1.imp_left fun h => ⟨Y, rfl, h⟩
    · exact definition_mem_merge.2 (Or.inr hn)
    · cases hY
      exact definition_mem_merge.2 (Or.inl hn)

section

variable {input? : Nat → Option (OrderedSet Descriptor)} {Z : OrderedSet Descriptor}

/-- Facts that arrive from the node visited bring definitions that are settled. -/
theorem Settled.arrive {w : Worklist} (hg : g.IsGraphOf name body) (hs : Settled g R w input?)
    (hle : ∀ n ∈ w.sources (edgesFrom g), R u → R n → u ≤ n) (hX : input? u = some X)
    (hZ : ∀ D ∈ Z, (∃ Y, input? v = some Y ∧ D ∈ Y) ∨ D ∈ (dependence counter).leaving g u X) :
    Settled g R w fun node => if node = v then some Z else input? node := by
  intro n W x d hW hd
  dsimp only at hW
  split at hW
  case isFalse => exact hs n W x d hW hd
  case isTrue =>
    cases hW
    obtain ⟨Y, hY, hd⟩ | hd := hZ _ hd
    · exact hs v Y x d hY hd
    · by_cases hx : g.defined? u = some x
      · rw [(definition_mem_leaving hg hx).1 hd]
        exact fun hu n hn => hle n hn hu
      · exact hs u X x d hX ((mem_leaving_of_ne hg hx).1 hd)

/-- Facts that arrive from the node visited are found, if none arrive at the definitions that
reached a node or at the node visited. -/
theorem Found.arrive (hg : g.IsGraphOf name body) (hs : Found counter g R input?)
    (huv : R u → u ≠ v)
    (hapart : ∀ n W x d, input? n = some W → ⟨x, .definition d⟩ ∈ W → R d → d ≠ v)
    (hX : input? u = some X)
    (hZ : input? v = none ∧ Z = (dependence counter).leaving g u X ∨
      ∃ Y, input? v = some Y ∧ Z = merge Y ((dependence counter).leaving g u X)) :
    Found counter g R fun node => if node = v then some Z else input? node := by
  obtain ⟨hdata, hnew, hold⟩ := arrived hZ
  -- Where a kind was found nothing arrives, so it is still found there.
  have hkept : ∀ n W x k, input? n = some W → ⟨x, .kind k⟩ ∈ W → ∃ d, ⟨x, .definition d⟩ ∈ W ∧
      (R d → ∃ Z', (if d = v then some Z else input? d) = some Z' ∧
        ⟨x, .kind k⟩ ∈ (dependence counter).leaving g d Z') := by
    intro n W x k hW hk
    obtain ⟨d, hd, hfound⟩ := hs n W x k hW hk
    refine ⟨d, hd, fun hRd => ?_⟩
    rw [if_neg (hapart n W x d hW hd hRd)]
    exact hfound hRd
  intro n W x k hW hk
  dsimp only at hW ⊢
  split at hW
  case isFalse => exact hkept n W x k hW hk
  case isTrue =>
    cases hW
    obtain ⟨Y, hY, hk⟩ | hk := hdata _ hk
    · obtain ⟨d, hd, hfound⟩ := hkept v Y x k hY hk
      exact ⟨d, hold Y x d hY hd, hfound⟩
    · by_cases hx : g.defined? u = some x
      · refine ⟨u, hnew x u ((definition_mem_leaving hg hx).2 rfl), fun hu => ⟨X, ?_, hk⟩⟩
        rw [if_neg (huv hu), hX]
      · obtain ⟨d, hd, hfound⟩ := hkept u X x k hX ((mem_leaving_of_ne hg hx).1 hk)
        exact ⟨d, hnew x d ((mem_leaving_of_ne hg hx).2 hd), hfound⟩

end

/-- A visit keeps this: at the definitions that reached a node nothing arrives any more. -/
theorem orderly_visit (hg : g.IsGraphOf name body) (hR : Onward g R) {s : Progress Descriptor}
    (hs : Orderly counter g R s) {e : Edge} {rest : Worklist}
    (hnext : s.worklist.next (edgesFrom g) = some (e, rest)) :
    Orderly counter g R ((dependence counter).visit g s e rest) := by
  have hsource : ∀ u, ∀ e ∈ edgesFrom g u, e.source = u :=
    fun u e he => Direction.source_of_mem_flowsFrom he
  obtain ⟨he, hreal⟩ := hs.real.next hsource hnext
  obtain ⟨horder, hmem, hle, hsub, hlisted⟩ := hs.inOrder.next hsource hR.flow hnext
  have hsize : ((dependence counter).visit g s e rest).inputs.size = g.size := by
    rw [Analysis.size_visit, hs.size_eq]
  have hsettled : Settled g R rest s.input? := fun u X x d hX hd hRd n hn =>
    hs.settled u X x d hX hd hRd n (hsub n hn)
  have hstay : ((dependence counter).visit g s e rest).input? = s.input? →
      ((dependence counter).visit g s e rest).worklist = rest →
      Orderly counter g R ((dependence counter).visit g s e rest) := by
    intro hin hw
    refine ⟨hsize, ?_, ?_, ?_, ?_⟩
    · rwa [hw]
    · rwa [hw]
    · rwa [hin, hw]
    · rw [hin]
      exact hs.found
  rcases Analysis.visit_cases (a := dependence counter) hg.coherent hs.size_eq he rest with
    ⟨-, hin, hw⟩ | ⟨-, -, -, -, -, hin, hw⟩ | ⟨X, Z, hX, hZ, hin, hw⟩
  · exact hstay hin hw
  · exact hstay hin hw
  · have hw : ((dependence counter).visit g s e rest).worklist =
        rest.push .nodes (edgesFrom g) e.target := hw
    have hcomes := hR.source e.source e.target ((mem_edgesFrom hg).1 he)
    -- Facts arrive at a node on the way only from an earlier one, and no definition is later.
    have hapart : ∀ d, R d → (R e.source → d ≤ e.source) → d ≠ e.target := by
      rintro d hd hbefore rfl
      obtain ⟨hRsource, hlt⟩ := hcomes hd
      have := hbefore hRsource
      omega
    obtain ⟨hpushed, hold⟩ := horder.push (t := e.target) fun ht =>
      hlisted _ ht (hcomes ht).1 (hcomes ht).2
    refine ⟨hsize, ?_, ?_, ?_, ?_⟩
    · rw [hw]
      exact hreal.push hsource _ _
    · rwa [hw]
    · rw [funext hin, hw]
      have harrive := hsettled.arrive hg (fun n hn hu hn' => hle n hn hu hn') hX (arrived hZ).1
      exact fun u W x d hW hd hRd n hn hRn => harrive u W x d hW hd hRd n (hold n hn hRn) hRn
    · rw [funext hin]
      refine hs.found.arrive hg (fun hu => hapart _ hu fun _ => Nat.le_refl _) ?_ hX hZ
      exact fun n W x d hW hd hRd => hapart d hRd (hs.settled n W x d hW hd hRd _ hmem)

/-- **Every kind of a solution is found at a definition that reaches its node**, if this definition
is on the way to a node to which control never comes back. -/
theorem found_of_solve (hg : g.IsGraphOf name body) (hR : Onward g R)
    (hr : (dependence counter).solve g cap = .ok r) : Found counter g R r.input? := by
  obtain ⟨t, ht, hinput⟩ := Analysis.solve_eq_ok hr
  rw [hinput]
  exact (Analysis.run_induct (P := Orderly counter g R)
    (fun s e rest hs => orderly_visit hg hR hs) (orderly_init hg hR) ht).1.found

end Flow

end ParLoop
