import ParLoop.Proofs.AliasGroup.OneToOne
import ParLoop.Proofs.Flow.Aliases
import ParLoop.Proofs.Flow.Body
import ParLoop.Proofs.FlowGraph.Program
import ParLoop.Proofs.Verify.Writes

/-!
# Storages under one-to-one names

When names are replaced one-to-one, a name may come to denote the storages that it denoted, under
their new names. A storage can have another new name than the variable it is called after, and then
a declaration of the variable, or a copy of it that does not know its storage, would mix up the two.
Where displaced names are neither declared nor copied in this way (`Program.AvoidsDisplaced`), the
storages found are those found before (`Flow.solve_aliases_replace`).
-/

namespace ParLoop

variable {σ τ : String → String}

/-- A fact about the storage of a name, with the name replaced as a variable and the storage as a
storage. -/
def Alias.replace (σ τ : String → String) (f : Alias) : Alias :=
  ⟨σ f.source, f.target.rename ⟨τ, τ⟩⟩

theorem Alias.replace_injective (hσ : σ.Injective) (hτ : τ.Injective) :
    (Alias.replace σ τ).Injective := by
  rintro ⟨x, t⟩ ⟨y, u⟩ h
  simp only [replace, mk.injEq] at h
  rw [hσ h.1, Expr.rename_injective hτ hτ h.2]

namespace Flow

variable {facts : OrderedSet Alias} {x : String} {t : Expr}

/-! ### One node -/

theorem mem_map_replace (hσ : σ.Injective) :
    ⟨σ x, t⟩ ∈ facts.map (Alias.replace σ τ) ↔ ∃ u, ⟨x, u⟩ ∈ facts ∧ u.rename ⟨τ, τ⟩ = t := by
  rw [OrderedSet.mem_map]
  constructor
  · rintro ⟨⟨y, u⟩, hf, heq⟩
    simp only [Alias.replace, Alias.mk.injEq] at heq
    exact ⟨u, hσ heq.1 ▸ hf, heq.2⟩
  · rintro ⟨u, hf, rfl⟩
    exact ⟨⟨x, u⟩, hf, rfl⟩

theorem known_map_replace (hσ : σ.Injective) :
    Known (facts.map (Alias.replace σ τ)) (σ x) ↔ Known facts x := by
  simp only [Known, mem_map_replace hσ]
  constructor
  · rintro ⟨-, u, hu, -⟩
    exact ⟨u, hu⟩
  · rintro ⟨u, hu⟩
    exact ⟨_, u, hu, rfl⟩

/-- A value denotes the same storages, unless it is a variable whose storage is not known: this
denotes itself. -/
theorem mem_denoted_replace (hσ : σ.Injective) {e : Expr}
    (he : ∀ y, e = .var y → Known facts y ∨ τ y = σ y) :
    t ∈ denoted (facts.map (Alias.replace σ τ)) (e.rename ⟨σ, σ⟩) ↔
      ∃ u ∈ denoted facts e, u.rename ⟨τ, τ⟩ = t := by
  cases hvar : e.asVariable? with
  | some y =>
    cases e <;> cases hvar
    simp only [Expr.rename, mem_denoted_var, mem_map_replace hσ, known_map_replace hσ]
    constructor
    · rintro (⟨u, hu, rfl⟩ | ⟨hknown, rfl⟩)
      · exact ⟨u, Or.inl hu, rfl⟩
      · exact ⟨.var y, Or.inr ⟨hknown, rfl⟩, congrArg _ ((he y rfl).resolve_left hknown)⟩
    · rintro ⟨u, hu | ⟨hknown, rfl⟩, rfl⟩
      · exact Or.inl ⟨u, hu, rfl⟩
      · exact Or.inr ⟨hknown, congrArg _ ((he y rfl).resolve_left hknown)⟩
  | none =>
    have hvar' : (e.rename ⟨σ, σ⟩).asVariable? = none := by rw [Expr.asVariable?_rename, hvar]; rfl
    simp only [mem_denoted_of_not_var hvar, mem_denoted_of_not_var hvar', Expr.names_rename,
      OrderedSet.mem_map]
    constructor
    · rintro ⟨-, ⟨y, hy, rfl⟩, f, hf, heq⟩
      obtain ⟨u, hu, rfl⟩ := (mem_map_replace hσ).1 (OrderedSet.mem_map.2 ⟨f, hf, heq⟩)
      exact ⟨u, ⟨y, hy, hu⟩, rfl⟩
    · rintro ⟨u, ⟨y, hy, hu⟩, rfl⟩
      exact ⟨σ y, ⟨y, hy, rfl⟩, ⟨y, u⟩, hu, rfl⟩

theorem rebind_replace (hσ : σ.Injective) {ts ts' : List Expr}
    (hts : ∀ t, t ∈ ts' ↔ ∃ u ∈ ts, u.rename ⟨τ, τ⟩ = t) :
    rebind (facts.map (Alias.replace σ τ)) (σ x) ts' =
      (rebind facts x ts).map (Alias.replace σ τ) := by
  refine OrderedSet.ext fun ⟨y, t⟩ => ?_
  rw [mem_rebind, OrderedSet.mem_map, OrderedSet.mem_map, hts]
  constructor
  · rintro (⟨⟨⟨z, u⟩, hf, heq⟩, hne⟩ | ⟨rfl, u, hu, rfl⟩)
    · simp only [Alias.replace, Alias.mk.injEq] at heq
      obtain ⟨rfl, rfl⟩ := heq
      exact ⟨⟨z, u⟩, mem_rebind.2 (Or.inl ⟨hf, fun h => hne (congrArg σ h)⟩), rfl⟩
    · exact ⟨⟨x, u⟩, mem_rebind.2 (Or.inr ⟨rfl, hu⟩), rfl⟩
  · rintro ⟨⟨z, u⟩, hf, heq⟩
    simp only [Alias.replace, Alias.mk.injEq] at heq
    obtain ⟨rfl, rfl⟩ := heq
    rcases mem_rebind.1 hf with ⟨hf, hne⟩ | ⟨rfl, hu⟩
    · exact Or.inl ⟨⟨⟨z, u⟩, hf, rfl⟩, fun h => hne (hσ h)⟩
    · exact Or.inr ⟨rfl, u, hu, rfl⟩

end Flow

/-- The name that a node declares. -/
def Node.declared? (n : Node) : Option String :=
  match n.kind with
  | .instr (.declare x) => some x
  | _ => none

/-- The variable of which a node makes a plain copy. -/
def Node.copied? (n : Node) : Option String :=
  match n.kind with
  | .instr (.assign (.var _) (.var y)) => some y
  | _ => none

namespace Flow

variable {facts : OrderedSet Alias} {g : FlowGraph}

theorem rebindAt_replace (hσ : σ.Injective) (outside : OrderedSet Alias) (root : String) (n : Node)
    (hdeclared : ∀ x ∈ n.declared?, τ x = σ x)
    (hcopied : ∀ y ∈ n.copied?, Known facts y ∨ τ y = σ y) :
    rebindAt (outside.map (Alias.replace σ τ)) root (n.replace σ)
      (facts.map (Alias.replace σ τ)) =
        (rebindAt outside root n facts).map (Alias.replace σ τ) := by
  obtain ⟨name, kind⟩ := n
  cases kind with
  | start =>
    show (if name = root then _ else _) = OrderedSet.map _ (if name = root then _ else _)
    split
    · rfl
    · rw [OrderedSet.map_union]
  | instr i =>
    cases i with
    | declare x =>
      refine rebind_replace hσ fun t => ?_
      simp [Expr.rename, hdeclared x rfl, eq_comm]
    | assign target value =>
      cases target with
      | var x =>
        refine rebind_replace hσ fun t => mem_denoted_replace hσ fun y hy => hcopied y ?_
        rw [hy]
        rfl
      | _ => rfl
    | _ => rfl
  | _ => rfl

/-! ### A graph -/

theorem renames_aliases (hσ : σ.Injective) (hτ : τ.Injective)
    (hcalls : g.JoinsCalls → KeepsCallNames σ) (outside : OrderedSet Alias)
    {P : Nat → OrderedSet Alias → Prop}
    (hdeclared : ∀ n ∈ g.nodes, ∀ x ∈ n.declared?, τ x = σ x)
    (hcopied : ∀ node facts, P node facts → ∀ n, g.nodes[node]? = some n → ∀ y ∈ n.copied?,
      Known facts y ∨ τ y = σ y) :
    (aliases outside).Renames (aliases (outside.map (Alias.replace σ τ))) g (fun _ => ⟨σ, σ⟩)
      (Alias.replace σ τ) P where
  injective := Alias.replace_injective hσ hτ
  name_eq := rfl
  direction_eq := rfl
  seed_eq := rfl
  extremal_eq := rfl
  merge_eq x y := (OrderedSet.map_union x y).symm
  leaving_eq node x hx := leaving_replace hσ hcalls (fun _ => rfl) fun n hn =>
    rebindAt_replace hσ outside g.root n (hdeclared n (Array.mem_of_getElem? hn))
      (hcopied node x hx n hn)

end Flow

/-! ### A program -/

open AliasGroup

theorem AliasGroup.seeds_replace (hσ : σ.Injective) {p : Program} (hp : p.SymbolsNamed) :
    seeds (ofProgram (p.replace σ)) =
      (seeds (ofProgram p)).map (Alias.replace σ (p.storageName σ)) := by
  refine OrderedSet.ext fun ⟨x, t⟩ => ?_
  rw [mem_seeds, OrderedSet.mem_map]
  constructor
  · rintro ⟨G', hG', hx, rfl⟩
    obtain ⟨G, hG, rfl⟩ := (mem_ofProgram_replace hσ).1 hG'
    obtain ⟨y, hy, rfl⟩ := OrderedSet.mem_map.1 hx
    refine ⟨⟨y, G.target⟩, mem_seeds.2 ⟨G, hG, hy, rfl⟩, ?_⟩
    show (⟨σ y, .var (p.storageName σ G.first)⟩ : Alias) = _
    rw [Program.storageName_first hp hG]
    rfl
  · rintro ⟨⟨y, u⟩, hf, heq⟩
    obtain ⟨G, hG, hy, rfl⟩ := mem_seeds.1 hf
    change (⟨σ y, .var (p.storageName σ G.first)⟩ : Alias) = ⟨x, t⟩ at heq
    rw [Program.storageName_first hp hG, Alias.mk.injEq] at heq
    obtain ⟨rfl, rfl⟩ := heq
    exact ⟨G.replace σ, (mem_ofProgram_replace hσ).2 ⟨G, hG, rfl⟩, OrderedSet.mem_map_of_mem hy,
      rfl⟩

/-! ### Names whose storages stay known -/

/-- Whether what is known of the storage of a name is lost at a node: where control passes from a
body to another one, and where the name is assigned. -/
def Node.loses (z : String) (n : Node) : Bool :=
  match n.kind with
  | .enter _ _ | .leave _ _ => true
  | .instr (.assign (.var x) _) => x == z
  | _ => false

/-- Whether the storages of outside names are known again after a node. -/
def Node.restores (root : String) (n : Node) : Bool := n.kind = .start && n.procedure ≠ root

/-- What is known of the storage of a name may be lost on the way to a node. -/
inductive FlowGraph.Forgets (g : FlowGraph) (z : String) : Nat → Prop where
  | lose {u v : Nat} {n : Node} (hn : g.nodes[u]? = some n) (he : ⟨u, v⟩ ∈ g.edges)
      (h : n.loses z = true) : Forgets g z v
  | pass {u v : Nat} {n : Node} (hn : g.nodes[u]? = some n) (he : ⟨u, v⟩ ∈ g.edges)
      (h : n.restores g.root = false) (hu : Forgets g z u) : Forgets g z v

/-- Nothing is forgotten within nodes to which control comes from among them only, if nothing is
lost there. -/
theorem FlowGraph.Forgets.not_mem {g : FlowGraph} {z : String} {region : List Nat}
    (hregion : ∀ e ∈ g.edges, e.target ∈ region →
      e.source ∈ region ∧ ∀ n ∈ g.nodes[e.source]?, n.loses z = false)
    {v : Nat} (h : g.Forgets z v) : v ∉ region := by
  induction h with
  | lose hn he h =>
    intro hv
    rw [(hregion _ he hv).2 _ hn] at h
    cases h
  | pass _ he _ _ ih => exact fun hv => ih (hregion _ he hv).1

/-- In a graph of a program no displaced name is declared. If calls are joined to their callees,
none is copied where its storage may be forgotten. -/
structure Program.AvoidsDisplaced (p : Program) (σ : String → String) (interprocedural : Bool)
    (g : FlowGraph) : Prop where
  declared : ∀ n ∈ g.nodes, ∀ x ∈ n.declared?, ¬p.Displaced σ x
  copied : p.joinsCalls interprocedural = true → ∀ node n, g.nodes[node]? = some n →
    ∀ y ∈ n.copied?, p.Displaced σ y → ¬g.Forgets y node

namespace Flow

variable {p : Program} {g : FlowGraph} {facts : OrderedSet Alias}

theorem known_seeds (hσ : σ.Injective) {z : String} (hz : p.Displaced σ z) :
    Known (seeds (ofProgram p)) z := by
  obtain ⟨G, hG, hmem⟩ := Program.mem_of_displaced hσ hz
  exact ⟨_, mem_seeds.2 ⟨G, hG, hmem, rfl⟩⟩

theorem Known.union {other : OrderedSet Alias} {z : String} (h : Known facts z) :
    Known (facts.union other) z :=
  h.imp fun _ ht => OrderedSet.mem_union.2 (Or.inl ht)

/-- A storage stays known at an instruction that neither declares nor assigns the name. -/
theorem known_leaving_instr {outside : OrderedSet Alias} {node : Nat} {name z : String} {i : Instr}
    (hn : g.nodes[node]? = some ⟨name, .instr i⟩) (hdeclare : i ≠ .declare z)
    (hassign : ∀ value, i ≠ .assign (.var z) value) (h : Known facts z) :
    Known ((aliases outside).leaving g node facts) z := by
  have hdefined : i.defined? ≠ some z := by
    intro hi
    cases i with
    | declare x =>
      cases hi
      exact hdeclare rfl
    | assign target value =>
      cases target with
      | var x =>
        cases hi
        exact hassign value rfl
      | _ => cases hi
    | _ => cases hi
  rw [leaving_aliases hn]
  exact h.imp fun t ht => (mem_carried_of_ne hdefined).2 ht

/-- The storages of displaced names are known wherever they are not forgotten. -/
theorem keeps_notForgotten (hσ : σ.Injective) (hg : g.Coherent)
    (hdeclared : ∀ n ∈ g.nodes, ∀ x ∈ n.declared?, ¬p.Displaced σ x) :
    (aliases (seeds (ofProgram p))).Keeps g fun node facts =>
      ∀ z, p.Displaced σ z → ¬g.Forgets z node → Known facts z where
  origin z hz _ := known_seeds hσ hz
  flow := by
    rintro ⟨u, v⟩ he facts hfacts z hz hnot
    have hedge : ⟨u, v⟩ ∈ g.edges := by
      rw [← hg.mem_successors]
      simpa [aliases, Direction.flowsFrom] using he
    obtain ⟨n, hn⟩ : ∃ n, g.nodes[u]? = some n :=
      ⟨_, Array.getElem?_eq_getElem (hg.lt_size u v hedge).1⟩
    have hloses : n.loses z = false := by
      by_contra h
      exact hnot (.lose hn hedge (by simpa using h))
    have hknown : n.restores g.root = false → Known facts z := fun h =>
      hfacts z hz fun hu => hnot (.pass hn hedge h hu)
    obtain ⟨name, kind⟩ := n
    cases kind with
    | enter f f' => cases hloses
    | leave f f' => cases hloses
    | instr i =>
      refine known_leaving_instr hn ?_ ?_ (hknown rfl)
      · rintro rfl
        exact hdeclared _ (Array.mem_of_getElem? hn) z rfl hz
      · rintro value rfl
        simp [Node.loses] at hloses
    | start =>
      rw [leaving_aliases hn]
      show Known (if name = g.root then facts else facts.union _) z
      split
      case isTrue hroot => exact hknown (by simp [Node.restores, hroot])
      case isFalse =>
        exact (known_seeds hσ hz).imp fun _ ht => OrderedSet.mem_union.2 (Or.inr ht)
    | stop =>
      rw [leaving_aliases hn]
      exact hknown rfl
    | invocation f es =>
      rw [leaving_aliases hn]
      exact hknown rfl
  merge node x y hx _ z hz hnot := (hx z hz hnot).union

/-- Control has come to a node without passing a declaration of a displaced name, and the storages
of the displaced names are known. -/
structure KnowsDisplaced (p : Program) (σ : String → String) (node : Nat)
    (facts : OrderedSet Alias) : Prop where
  position : node = 0 ∨
    ∃ k, node = nodeOf p.body.length k ∧ ∀ z, p.Displaced σ z → Undeclared p.body z k
  known : ∀ z, p.Displaced σ z → Known facts z

/-- In a graph of the loop body alone, the storages of displaced names stay known: an assignment to
one of them would be found as a write to a shared variable. -/
theorem keeps_knowsDisplaced (hσ : σ.Injective) (hg : g.IsGraphOf loopName p.body)
    (hassigns : AssignsOnly p.body []) (hdeclared : ∀ z, p.Displaced σ z → .declare z ∉ p.body) :
    (aliases (seeds (ofProgram p))).Keeps g (KnowsDisplaced p σ) where
  origin := ⟨Or.inl hg.start_eq, fun _ hz => known_seeds hσ hz⟩
  flow := by
    rintro ⟨u, v⟩ he facts ⟨hposition, hknown⟩
    rcases (hg.mem_edges u v).1 ((mem_flowsFrom_forward hg rfl).1 he) with ⟨rfl, rfl⟩ |
      ⟨k, k', hstep, rfl, rfl⟩
    · refine ⟨Or.inr ⟨0, rfl, fun z _ => .start⟩, ?_⟩
      rw [leaving_start hg]
      show ∀ z, p.Displaced σ z → Known (if loopName = g.root then facts else _) z
      rwa [if_pos hg.root_eq.symm]
    · obtain ⟨i, hi, -⟩ := id hstep
      obtain ⟨k₀, hk₀, hundeclared⟩ := hposition.resolve_left (Nat.succ_ne_zero _)
      dsimp only at hk₀
      obtain rfl : k₀ = k := by
        unfold nodeOf at hk₀
        split at hk₀ <;> omega
      have hnot : ∀ z, p.Displaced σ z → p.body[k₀]? ≠ some (.declare z) :=
        fun z hz h => hdeclared z hz (List.mem_of_getElem? h)
      refine ⟨Or.inr ⟨k', rfl, fun z hz => .step (hundeclared z hz) (hnot z hz) hstep⟩,
        fun z hz => ?_⟩
      have hn : g.nodes[k₀ + 2]? = some ⟨loopName, .instr i⟩ := by rw [hg.node_instr, hi]; rfl
      refine known_leaving_instr hn ?_ ?_ (hknown z hz)
      · rintro rfl
        exact hnot z hz hi
      · rintro value rfl
        exact List.not_mem_nil (hassigns z k₀ value hi (hundeclared z hz))
  merge node x y hx _ := ⟨hx.position, fun z hz => (hx.known z hz).union⟩

/-! ### All storages -/

/-- **The storages under one-to-one names.** -/
theorem solve_aliases_replace (hσ : σ.Injective) (hp : p.SymbolsNamed) {interprocedural : Bool}
    {calls : CallGraph} (hg : FlowGraph.ofProgram p interprocedural = .ok (g, calls))
    (hcalls : p.joinsCalls interprocedural = true → KeepsCallNames σ)
    (hassigns : AssignsOnly p.body []) (havoids : p.AvoidsDisplaced σ interprocedural g)
    (cap : Nat) :
    (aliases (seeds (ofProgram (p.replace σ)))).solve (g.replace σ) cap =
      ((aliases (seeds (ofProgram p))).solve g cap).map
        (Solution.map (Alias.replace σ (p.storageName σ))) := by
  have hτ := Program.storageName_injective hσ hp
  have hcoherent := FlowGraph.coherent_ofProgram hg
  have hself : ∀ {z}, ¬p.Displaced σ z → p.storageName σ z = σ z :=
    fun h => Program.storageName_of_not_displaced hp hσ h
  have hdeclared : ∀ n ∈ g.nodes, ∀ x ∈ n.declared?, p.storageName σ x = σ x :=
    fun n hn x hx => hself (havoids.declared n hn x hx)
  rw [seeds_replace hσ hp]
  cases hjoins : p.joinsCalls interprocedural with
  | true =>
    refine (renames_aliases hσ hτ (fun _ => hcalls hjoins) _ hdeclared ?_).solve_eq hcoherent
      (keeps_notForgotten hσ hcoherent havoids.declared) cap
    intro node facts hfacts n hn y hy
    by_cases hdisplaced : p.Displaced σ y
    · exact Or.inl (hfacts y hdisplaced (havoids.copied hjoins node n hn y hy hdisplaced))
    · exact Or.inr (hself hdisplaced)
  | false =>
    have hgraph := FlowGraph.isGraphOf_of_joinsCalls hg hjoins
    have hbody : ∀ z, p.Displaced σ z → .declare z ∉ p.body := fun z hz hmem => by
      have hnode : ⟨loopName, .instr (.declare z)⟩ ∈ g.nodes := by
        rw [← Array.mem_toList_iff, hgraph.nodes_eq, nodesOf]
        simp [hmem]
      exact havoids.declared _ hnode z rfl hz
    refine (renames_aliases hσ hτ (fun h => absurd h hgraph.not_joinsCalls) _ hdeclared
      ?_).solve_eq hcoherent (keeps_knowsDisplaced hσ hgraph hassigns hbody) cap
    intro _ facts hfacts _ _ y _
    by_cases hdisplaced : p.Displaced σ y
    · exact Or.inl (hfacts.known y hdisplaced)
    · exact Or.inr (hself hdisplaced)

end Flow

end ParLoop
