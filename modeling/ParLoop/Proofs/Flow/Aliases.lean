import ParLoop.Flow.Aliases
import ParLoop.Proofs.Flow.Stable

/-!
# What is known of the storages of names

Which storages a name may denote after a node, and when it may denote any at all: a variable that is
declared, or that is assigned a plain variable, always does.
-/

namespace ParLoop

theorem Alias.mem_targetsOf {facts : OrderedSet Alias} {x : String} {t : Expr} :
    t ∈ Alias.targetsOf facts x ↔ ⟨x, t⟩ ∈ facts := by
  simp only [Alias.targetsOf, List.mem_map, List.mem_filter, decide_eq_true_eq]
  constructor
  · rintro ⟨⟨y, u⟩, ⟨hf, rfl⟩, rfl⟩
    exact hf
  · exact fun h => ⟨_, ⟨h, rfl⟩, rfl⟩

namespace Flow

variable {facts : OrderedSet Alias} {x y : String} {t : Expr}

theorem mem_rebind {ts : List Expr} :
    ⟨y, t⟩ ∈ rebind facts x ts ↔ ⟨y, t⟩ ∈ facts ∧ y ≠ x ∨ y = x ∧ t ∈ ts := by
  simp only [rebind, OrderedSet.mem_union, OrderedSet.mem_filter, decide_eq_true_eq,
    OrderedSet.mem_ofList, List.mem_map, Alias.mk.injEq]
  constructor
  · rintro (h | ⟨u, hu, rfl, rfl⟩)
    · exact Or.inl h
    · exact Or.inr ⟨rfl, hu⟩
  · rintro (h | ⟨rfl, ht⟩)
    · exact Or.inl h
    · exact Or.inr ⟨t, ht, rfl, rfl⟩

/-- A name may denote some storage. -/
def Known (facts : OrderedSet Alias) (x : String) : Prop := ∃ t, ⟨x, t⟩ ∈ facts

theorem known_iff : Known facts x ↔ Alias.targetsOf facts x ≠ [] := by
  constructor
  · rintro ⟨t, ht⟩ hnone
    rw [← Alias.mem_targetsOf, hnone] at ht
    cases ht
  · intro hsome
    obtain ⟨t, ht⟩ := List.exists_mem_of_ne_nil _ hsome
    exact ⟨t, Alias.mem_targetsOf.1 ht⟩

/-- A plain variable denotes what is known of it, and itself if nothing is. -/
theorem mem_denoted_var : t ∈ denoted facts (.var x) ↔
    ⟨x, t⟩ ∈ facts ∨ ¬Known facts x ∧ t = .var x := by
  unfold denoted
  dsimp only
  split
  case h_1 hnone =>
    have hnot : ¬Known facts x := fun hknown => known_iff.1 hknown hnone
    rw [List.mem_singleton]
    refine ⟨fun ht => Or.inr ⟨hnot, ht⟩, fun h => (h.resolve_left fun ht => hnot ⟨t, ht⟩).2⟩
  case h_2 hsome =>
    rw [Alias.mem_targetsOf]
    exact ⟨Or.inl, fun h => h.resolve_right fun hnot => hnot.1 (known_iff.2 hsome)⟩

theorem exists_mem_denoted_var (facts : OrderedSet Alias) (x : String) :
    ∃ t, t ∈ denoted facts (.var x) := by
  by_cases h : Known facts x
  · exact h.imp fun t ht => mem_denoted_var.2 (Or.inl ht)
  · exact ⟨_, mem_denoted_var.2 (Or.inr ⟨h, rfl⟩)⟩

/-- A computed value denotes what the names in it denote. -/
theorem mem_denoted_of_not_var {e : Expr} (he : e.asVariable? = none) :
    t ∈ denoted facts e ↔ ∃ x ∈ e.names, ⟨x, t⟩ ∈ facts := by
  cases e with
  | var x => cases he
  | _ => simp [denoted, Alias.mem_targetsOf, OrderedSet.mem_iff]

/-- What is known after a node: only facts about arguments go into a callee, and only those about
its result come back. -/
def carried (outside : OrderedSet Alias) (root : String) (v : Node) (facts : OrderedSet Alias) :
    OrderedSet Alias :=
  match v.kind with
  | .enter _ callee => facts.filter fun f =>
      (argumentPrefix callee).toList.isPrefixOf f.source.toList
  | .leave callee _ => facts.filter fun f => f.source == resultName callee
  | _ => rebindAt outside root v facts

/-- An instruction changes what is known of the variable that it binds only. -/
theorem mem_carried_of_ne {outside : OrderedSet Alias} {root procedure : String} {i : Instr}
    (h : i.defined? ≠ some y) :
    ⟨y, t⟩ ∈ carried outside root ⟨procedure, .instr i⟩ facts ↔ ⟨y, t⟩ ∈ facts := by
  cases i with
  | declare x =>
    have hne : y ≠ x := fun heq => h (congrArg some heq.symm)
    exact mem_rebind.trans (by simp [hne])
  | assign target value =>
    cases target with
    | var x =>
      have hne : y ≠ x := fun heq => h (congrArg some heq.symm)
      exact mem_rebind.trans (by simp [hne])
    | _ => rfl
  | _ => rfl

theorem leaving_aliases {outside : OrderedSet Alias} {g : FlowGraph} {n : Nat} {v : Node}
    (hv : g.nodes[n]? = some v) (facts : OrderedSet Alias) :
    (aliases outside).leaving g n facts = carried outside g.root v facts := by
  obtain ⟨x, kind⟩ := v
  cases kind with
  | enter a b => exact (aliases outside).leaving_of_enter facts hv
  | leave a b =>
    refine ((aliases outside).leaving_of_leave facts hv).trans
      (congrArg (OrderedSet.filter · facts) (funext fun f => ?_))
    show (some f.source == some _) = _
    simp
  | _ => exact (aliases outside).leaving_of_not_crosses facts hv rfl

end Flow

end ParLoop
