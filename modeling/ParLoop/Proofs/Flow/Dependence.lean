import ParLoop.Flow.Dependence
import ParLoop.Proofs.Flow.Body

/-!
# Loop dependence

What is known of a variable after it has got a value (`kindsOf_redefine`, `definitionsOf_redefine`),
and the laws of merging descriptors (`isJoin_dependence`): of a variable with several definitions
nothing else is kept, so that a set absorbs itself if no variable in it has both.
-/

namespace ParLoop

/-- A set has at most one member. -/
theorem OrderedSet.size_le_one_iff {α : Type} [Ord α] [Std.TransOrd α] [Std.LawfulEqOrd α]
    {s : OrderedSet α} : s.size ≤ 1 ↔ ∀ a ∈ s, ∀ b ∈ s, a = b := by
  obtain ⟨l, hl⟩ := s
  show l.length ≤ 1 ↔ ∀ a ∈ l, ∀ b ∈ l, a = b
  cases l with
  | nil => simp
  | cons a l =>
    cases l with
    | nil => simp
    | cons b l =>
      have hab : compare a b = .lt := (List.pairwise_cons.1 hl).1 b (by simp)
      constructor
      · intro h
        simp at h
      · intro h
        cases h a (by simp) b (by simp)
        simp at hab

namespace Descriptor

variable {facts s t x y z : OrderedSet Descriptor} {name : String}

theorem mem_kindsOf {k : Kind} : k ∈ kindsOf facts name ↔ ⟨name, .kind k⟩ ∈ facts := by
  simp [kindsOf]

theorem kindsOf_empty : kindsOf ∅ name = ∅ := by
  ext k
  simp [mem_kindsOf]

theorem mem_definitionsOf {n : Nat} :
    n ∈ definitionsOf facts name ↔ ⟨name, .definition n⟩ ∈ facts := by
  rw [definitionsOf, OrderedSet.mem_ofList, List.mem_filterMap]
  constructor
  · rintro ⟨⟨x, m⟩, hd, hn⟩
    split at hn
    case isTrue h =>
      cases m with
      | kind k => cases hn
      | definition m =>
        cases hn
        exact h ▸ hd
    case isFalse => cases hn
  · intro h
    exact ⟨_, h, by simp [Mark.definition?]⟩

/-- A variable has at most one definition. -/
def DefinedOnce (facts : OrderedSet Descriptor) (name : String) : Prop :=
  ∀ m n, ⟨name, .definition m⟩ ∈ facts → ⟨name, .definition n⟩ ∈ facts → m = n

theorem size_definitionsOf_le_one : (definitionsOf facts name).size ≤ 1 ↔
    DefinedOnce facts name := by
  simp only [OrderedSet.size_le_one_iff, mem_definitionsOf, DefinedOnce]
  exact ⟨fun h m n hm hn => h m hm n hn, fun h m hm n hn => h m n hm hn⟩

theorem mem_merge {d : Descriptor} : d ∈ merge s t ↔ (d ∈ s ∨ d ∈ t) ∧
    (d.mark.isDefinition = true ∨ DefinedOnce (s.union t) d.name) := by
  simp [merge, size_definitionsOf_le_one]

theorem definition_mem_merge {n : Nat} : ⟨name, .definition n⟩ ∈ merge s t ↔
    ⟨name, .definition n⟩ ∈ s ∨ ⟨name, .definition n⟩ ∈ t := by
  simp [mem_merge, Mark.isDefinition]

theorem kind_mem_merge {k : Kind} : ⟨name, .kind k⟩ ∈ merge s t ↔
    (⟨name, .kind k⟩ ∈ s ∨ ⟨name, .kind k⟩ ∈ t) ∧ DefinedOnce (s.union t) name := by
  simp [mem_merge, Mark.isDefinition]

/-- `DefinedOnce` is a matter of the definitions alone. -/
theorem DefinedOnce.of_definitions
    (h : ∀ n, (⟨name, .definition n⟩ : Descriptor) ∈ s → ⟨name, .definition n⟩ ∈ t)
    (ht : DefinedOnce t name) : DefinedOnce s name :=
  fun m n hm hn => ht m n (h m hm) (h n hn)

/-- When a set absorbs another one: it has its definitions, and its kinds where they count. -/
theorem merge_eq_left_iff : merge s t = s ↔
    (∀ x n, (⟨x, .definition n⟩ : Descriptor) ∈ t → ⟨x, .definition n⟩ ∈ s) ∧
    (∀ x k, (⟨x, .kind k⟩ : Descriptor) ∈ s → DefinedOnce s x) ∧
    ∀ x k, (⟨x, .kind k⟩ : Descriptor) ∈ t → DefinedOnce s x → ⟨x, .kind k⟩ ∈ s := by
  constructor
  · intro h
    have hdef : ∀ x n, (⟨x, .definition n⟩ : Descriptor) ∈ t → ⟨x, .definition n⟩ ∈ s := by
      intro x n hx
      rw [← h, definition_mem_merge]
      exact Or.inr hx
    have hunion : ∀ x, DefinedOnce s x ↔ DefinedOnce (s.union t) x := by
      intro x
      constructor
      · exact fun hs => hs.of_definitions fun n hn =>
          (OrderedSet.mem_union.1 hn).elim id (hdef x n)
      · exact fun hs => hs.of_definitions fun n hn => OrderedSet.mem_union.2 (Or.inl hn)
    refine ⟨hdef, fun x k hk => ?_, fun x k hk hx => ?_⟩
    · rw [← h, kind_mem_merge] at hk
      exact (hunion x).2 hk.2
    · rw [← h, kind_mem_merge]
      exact ⟨Or.inr hk, (hunion x).1 hx⟩
  · rintro ⟨hdef, hself, hkind⟩
    have hunion : ∀ x, DefinedOnce s x → DefinedOnce (s.union t) x :=
      fun x hs => hs.of_definitions fun n hn => (OrderedSet.mem_union.1 hn).elim id (hdef x n)
    ext ⟨x, m⟩
    cases m with
    | definition n =>
      rw [definition_mem_merge]
      exact ⟨fun h => h.elim id (hdef x n), Or.inl⟩
    | kind k =>
      rw [kind_mem_merge]
      constructor
      · rintro ⟨hk | hk, hx⟩
        · exact hk
        · exact hkind x k hk (hx.of_definitions fun n hn => OrderedSet.mem_union.2 (Or.inl hn))
      · exact fun hk => ⟨Or.inl hk, hunion x (hself x k hk)⟩

theorem definedOnce_merge : DefinedOnce (merge s t) name ↔ DefinedOnce (s.union t) name := by
  constructor
  · exact fun h => h.of_definitions fun n hn =>
      definition_mem_merge.2 (OrderedSet.mem_union.1 hn)
  · exact fun h => h.of_definitions fun n hn =>
      OrderedSet.mem_union.2 (definition_mem_merge.1 hn)

theorem merge_self_iff : merge s s = s ↔
    ∀ x k, (⟨x, .kind k⟩ : Descriptor) ∈ s → DefinedOnce s x := by
  rw [merge_eq_left_iff]
  exact ⟨fun h => h.2.1, fun h => ⟨fun _ _ h => h, h, fun _ _ hk _ => hk⟩⟩

theorem merge_merge_right : merge (merge s t) t = merge s t := by
  rw [merge_eq_left_iff]
  refine ⟨fun x n hn => definition_mem_merge.2 (Or.inr hn), fun x k hk => ?_, fun x k hk hx => ?_⟩
  · exact definedOnce_merge.2 (kind_mem_merge.1 hk).2
  · exact kind_mem_merge.2 ⟨Or.inr hk, definedOnce_merge.1 hx⟩

theorem merge_merge_self : merge (merge s t) (merge s t) = merge s t := by
  rw [merge_self_iff]
  exact fun x k hk => definedOnce_merge.2 (kind_mem_merge.1 hk).2

theorem merge_merge_of_absorbed (h : merge x y = x) : merge (merge x z) y = merge x z := by
  obtain ⟨hdef, -, hkind⟩ := merge_eq_left_iff.1 h
  rw [merge_eq_left_iff]
  refine ⟨fun v n hn => definition_mem_merge.2 (Or.inl (hdef v n hn)), fun v k hk => ?_,
    fun v k hk hv => ?_⟩
  · exact definedOnce_merge.2 (kind_mem_merge.1 hk).2
  · have hunion := definedOnce_merge.1 hv
    have hx : DefinedOnce x v :=
      hunion.of_definitions fun n hn => OrderedSet.mem_union.2 (Or.inl hn)
    exact kind_mem_merge.2 ⟨Or.inl (hkind v k hk hx), hunion⟩

end Descriptor

namespace Flow

open Descriptor

variable {facts : OrderedSet Descriptor} {name x : String} {node : Nat} {kinds : Kinds}

theorem mem_redefine {d : Descriptor} : d ∈ redefine facts x node kinds ↔
    d ∈ facts ∧ d.name ≠ x ∨ d = ⟨x, .definition node⟩ ∨ ∃ k ∈ kinds, d = ⟨x, .kind k⟩ := by
  rw [redefine, OrderedSet.mem_union, OrderedSet.mem_insert, OrderedSet.mem_filter,
    OrderedSet.mem_ofList, List.mem_map, decide_eq_true_eq, or_comm (b := d ∈ facts ∧ d.name ≠ x),
    or_assoc]
  simp only [OrderedSet.mem_iff, eq_comm]

/-- What is known of the value after a definition. -/
theorem kindsOf_redefine : kindsOf (redefine facts x node kinds) name =
    if name = x then kinds else kindsOf facts name := by
  ext k
  split <;> simp [mem_kindsOf, mem_redefine, *]

/-- A definition replaces those before it. -/
theorem definitionsOf_redefine : definitionsOf (redefine facts x node kinds) name =
    if name = x then .ofList [node] else definitionsOf facts name := by
  ext n
  split <;> simp [mem_definitionsOf, mem_redefine, *]

theorem merge_redefine_self (h : merge facts facts = facts) :
    merge (redefine facts x node kinds) (redefine facts x node kinds) =
      redefine facts x node kinds := by
  rw [merge_self_iff] at h ⊢
  intro v k hk m n hm hn
  simp only [mem_redefine] at hk hm hn
  by_cases hv : v = x
  · simp [hv] at hm hn
    omega
  · simp [hv] at hk hm hn
    exact h v k hk m n hm hn

/-- Facts that are kept or dropped with all others of their variable. -/
theorem merge_filter_self (h : merge facts facts = facts) (p : String → Bool) :
    merge (facts.filter fun d => p d.name) (facts.filter fun d => p d.name) =
      facts.filter fun d => p d.name := by
  rw [merge_self_iff] at h ⊢
  intro v k hk m n hm hn
  simp only [OrderedSet.mem_filter] at hk hm hn
  exact h v k hk.1 m n hm.1 hn.1

theorem merge_counterFacts_self (counter : String) (start : Nat) :
    merge (counterFacts counter start) (counterFacts counter start) = counterFacts counter start :=
  merge_redefine_self (by rw [merge_self_iff]; simp)

theorem describe_declare (f : String) :
    describe node ⟨f, .instr (.declare x)⟩ facts = redefine facts x node ∅ := rfl

theorem describe_assign (f : String) (value : Expr) :
    describe node ⟨f, .instr (.assign (.var x) value)⟩ facts =
      redefine facts x node (evaluate facts value) := rfl

theorem merge_describe_self (h : merge facts facts = facts) {n : Node} :
    merge (describe node n facts) (describe node n facts) = describe node n facts := by
  unfold describe
  split
  · exact merge_redefine_self h
  · exact merge_redefine_self h
  · exact h

/-- **Merging descriptors is a join** for the facts that a loop comes to. -/
theorem isJoin_dependence (counter : String) (g : FlowGraph) : (dependence counter).IsJoin g where
  absorbs_merge _ _ := merge_merge_right
  merge_absorbs _ _ _ h := merge_merge_of_absorbed h
  merge_self _ _ := merge_merge_self
  extremal_self := merge_counterFacts_self counter g.start
  leaving_self node x hx := by
    have hx : merge x x = x := hx
    show merge _ _ = _
    obtain ⟨-, heq⟩ | ⟨n, p, -, -, heq⟩ | ⟨n, -, -, heq⟩ :=
      (dependence counter).leaving_forms g node <;> rw [heq]
    · exact hx
    · exact merge_filter_self hx p
    · exact merge_describe_self hx

end Flow

end ParLoop
