import ParLoop.Flow.Available
import ParLoop.Flow.Copies
import ParLoop.Flow.Names
import ParLoop.Proofs.Expr.OneToOne
import ParLoop.Proofs.Flow.Dependence
import ParLoop.Proofs.Flow.Renamed

/-!
# Facts under one-to-one names

Names are replaced one-to-one throughout a graph. What the analyses find is then what they found
before, with the names replaced in the facts: loop dependence (`renames_dependence`), declared names
(`renames_declared`), available computations (`renames_available`) and copies (`renames_copies`).

Calls pass on facts by the look of their names. Where a graph joins calls to their callees, the
names that serve calls have to stay.
-/

namespace ParLoop

variable {σ : String → String}

/-! ### Names that serve calls -/

/-- A name that serves calls: it starts as the arguments of a procedure do, or it holds or keeps a
result. -/
def ServesCalls (x : String) : Prop :=
  (∃ f, (argumentPrefix f).toList.isPrefixOf x.toList = true) ∨ (∃ f, x = resultName f) ∨
    ∃ f k, x = captureName f k

/-- A dollar sign stands in front of a name that serves calls. -/
theorem ServesCalls.head?_toList {x : String} (h : ServesCalls x) : x.toList.head? = some '$' := by
  rcases h with ⟨f, hf⟩ | hname
  · obtain ⟨rest, hrest⟩ := List.isPrefixOf_iff_prefix.1 hf
    rw [← hrest]
    simp [argumentPrefix]
  · exact IsCallName.head?_toList (Or.inr hname)

/-- The names that serve calls stay. -/
def KeepsCallNames (σ : String → String) : Prop := ∀ x, ServesCalls x → σ x = x

namespace KeepsCallNames

theorem keepsCalls (h : KeepsCallNames σ) : Renaming.KeepsCalls ⟨σ, σ⟩ where
  argument f k := h _ (Or.inl ⟨f, by simp [argumentName]⟩)
  result f := h _ (Or.inr (Or.inl ⟨f, rfl⟩))
  capture f k := h _ (Or.inr (Or.inr ⟨f, k, rfl⟩))

/-- No other name becomes one that serves calls. -/
theorem eq_self (h : KeepsCallNames σ) (hσ : σ.Injective) {x : String} (hx : ServesCalls (σ x)) :
    σ x = x :=
  hσ (h (σ x) hx)

theorem isPrefixOf_eq (h : KeepsCallNames σ) (hσ : σ.Injective) (f x : String) :
    (argumentPrefix f).toList.isPrefixOf (σ x).toList =
      (argumentPrefix f).toList.isPrefixOf x.toList := by
  rw [Bool.eq_iff_iff]
  constructor
  · intro hx
    rwa [h.eq_self hσ (Or.inl ⟨f, hx⟩)] at hx
  · intro hx
    rwa [h x (Or.inl ⟨f, hx⟩)]

theorem eq_resultName_iff (h : KeepsCallNames σ) (hσ : σ.Injective) {f x : String} :
    σ x = resultName f ↔ x = resultName f := by
  constructor
  · intro hx
    rwa [h.eq_self hσ (Or.inr (Or.inl ⟨f, hx⟩))] at hx
  · intro hx
    rw [h x (Or.inr (Or.inl ⟨f, hx⟩)), hx]

end KeepsCallNames

/-- Control passes into callees and back. -/
def FlowGraph.JoinsCalls (g : FlowGraph) : Prop :=
  ∃ n ∈ g.nodes, n.crosses = true

/-- The graph with names replaced. -/
abbrev FlowGraph.replace (σ : String → String) (g : FlowGraph) : FlowGraph :=
  g.rename fun _ => ⟨σ, σ⟩

/-- The node with names replaced. -/
abbrev Node.replace (σ : String → String) (n : Node) : Node := n.rename fun _ => ⟨σ, σ⟩

namespace Flow

open Std

/-- What a call passes on is a matter of names that stay, so that only the transfer functions are
left. -/
theorem leaving_replace {F F' : Type} [Ord F] [Ord F'] [TransOrd F'] [LawfulEqOrd F']
    {a : Analysis F} {a' : Analysis F'} {g : FlowGraph} {φ : F → F'} (hσ : σ.Injective)
    (hcalls : g.JoinsCalls → KeepsCallNames σ)
    (hsubject : ∀ f, a'.subject (φ f) = (a.subject f).map σ) {node : Nat} {x : OrderedSet F}
    (htransfer : ∀ n, g.nodes[node]? = some n →
      a'.transfer (g.replace σ) node (n.replace σ) (x.map φ) = (a.transfer g node n x).map φ) :
    a'.leaving (g.replace σ) node (x.map φ) = (a.leaving g node x).map φ := by
  have hn' := FlowGraph.getElem?_rename (fun _ => ⟨σ, σ⟩) g node
  cases hn : g.nodes[node]? with
  | none =>
    rw [hn] at hn'
    rw [a.leaving_of_none x hn, a'.leaving_of_none _ hn']
  | some n =>
    rw [hn] at hn'
    have hmem : n ∈ g.nodes := Array.mem_of_getElem? hn
    have hthis := htransfer n hn
    obtain ⟨name, kind⟩ := n
    cases kind with
    | enter f callee =>
      have hkeeps := hcalls ⟨_, hmem, rfl⟩
      rw [a.leaving_of_enter x hn, a'.leaving_of_enter _ hn']
      refine (OrderedSet.map_filter fun fact _ => ?_).symm
      rw [hsubject]
      cases a.subject fact with
      | none => rfl
      | some y => exact hkeeps.isPrefixOf_eq hσ callee y
    | leave callee f =>
      have hkeeps := hcalls ⟨_, hmem, rfl⟩
      rw [a.leaving_of_leave x hn, a'.leaving_of_leave _ hn']
      refine (OrderedSet.map_filter fun fact _ => ?_).symm
      rw [hsubject]
      cases a.subject fact with
      | none => rfl
      | some y =>
        rw [Bool.eq_iff_iff]
        simpa using hkeeps.eq_resultName_iff hσ
    | _ => rwa [a.leaving_of_not_crosses x hn rfl, a'.leaving_of_not_crosses _ hn' rfl]

end Flow

/-! ### Loop dependence -/

namespace Descriptor

/-- A descriptor of the variable with another name. -/
def replace (σ : String → String) (d : Descriptor) : Descriptor := ⟨σ d.name, d.mark⟩

theorem replace_injective (hσ : σ.Injective) : (replace σ).Injective := by
  rintro ⟨x, m⟩ ⟨y, n⟩ h
  simp only [replace, mk.injEq] at h
  rw [hσ h.1, h.2]

variable {facts : OrderedSet Descriptor}

theorem kindsOf_replace (hσ : σ.Injective) (facts : OrderedSet Descriptor) (x : String) :
    kindsOf (facts.map (replace σ)) (σ x) = kindsOf facts x := by
  ext k
  rw [mem_kindsOf, mem_kindsOf]
  exact OrderedSet.mem_map_iff (a := ⟨x, .kind k⟩) (replace_injective hσ)

theorem definitionsOf_replace (hσ : σ.Injective) (facts : OrderedSet Descriptor) (x : String) :
    definitionsOf (facts.map (replace σ)) (σ x) = definitionsOf facts x := by
  ext n
  rw [mem_definitionsOf, mem_definitionsOf]
  exact OrderedSet.mem_map_iff (a := ⟨x, .definition n⟩) (replace_injective hσ)

theorem merge_replace (hσ : σ.Injective) (s t : OrderedSet Descriptor) :
    merge (s.map (replace σ)) (t.map (replace σ)) = (merge s t).map (replace σ) := by
  rw [merge, merge, ← OrderedSet.map_union]
  refine (OrderedSet.map_filter fun d _ => ?_).symm
  rw [show (replace σ d).name = σ d.name from rfl, definitionsOf_replace hσ]
  rfl

theorem evaluate_replace (hσ : σ.Injective) (facts : OrderedSet Descriptor) (e : Expr) :
    evaluate (facts.map (replace σ)) (e.rename ⟨σ, σ⟩) = evaluate facts e := by
  induction e with
  | var x => exact kindsOf_replace hσ facts x
  | neg e ih => rw [Expr.rename, evaluate, evaluate, ih]
  | paren e ih => rw [Expr.rename, evaluate, evaluate, ih]
  | binary op l r ihl ihr => simp only [Expr.rename, evaluate, ihl, ihr]
  | _ => rfl

theorem isLoopDependent_replace (hσ : σ.Injective) (facts : OrderedSet Descriptor) (e : Expr) :
    isLoopDependent (facts.map (replace σ)) (e.rename ⟨σ, σ⟩) = isLoopDependent facts e := by
  rw [isLoopDependent, isLoopDependent, evaluate_replace hσ]

end Descriptor

namespace Flow

open Descriptor

theorem redefine_replace (hσ : σ.Injective) (facts : OrderedSet Descriptor) (x : String)
    (node : Nat) (kinds : Kinds) :
    redefine (facts.map (replace σ)) (σ x) node kinds =
      (redefine facts x node kinds).map (replace σ) := by
  have hothers : (facts.filter fun d => d.name ≠ x).map (replace σ) =
      (facts.map (replace σ)).filter fun d => d.name ≠ σ x :=
    OrderedSet.map_filter fun d _ => by simp [replace, hσ.eq_iff]
  rw [redefine, redefine, OrderedSet.map_union, OrderedSet.map_insert, OrderedSet.map_ofList,
    hothers, List.map_map]
  rfl

theorem describe_replace (hσ : σ.Injective) (node : Nat) (n : Node)
    (facts : OrderedSet Descriptor) :
    describe node (n.replace σ) (facts.map (replace σ)) =
      (describe node n facts).map (replace σ) := by
  obtain ⟨name, kind⟩ := n
  cases kind with
  | instr i =>
    cases i with
    | declare x => exact redefine_replace hσ facts x node ∅
    | assign target value =>
      cases target with
      | var x =>
        show redefine _ (σ x) node (evaluate _ (value.rename ⟨σ, σ⟩)) = _
        rw [evaluate_replace hσ, redefine_replace hσ]
        rfl
      | _ => rfl
    | _ => rfl
  | _ => rfl

theorem renames_dependence (hσ : σ.Injective) {g : FlowGraph}
    (hcalls : g.JoinsCalls → KeepsCallNames σ) (counter : String) :
    (dependence counter).Renames (dependence (σ counter)) g (fun _ => ⟨σ, σ⟩) (replace σ)
      fun _ _ => True where
  injective := replace_injective hσ
  name_eq := rfl
  direction_eq := rfl
  seed_eq := rfl
  extremal_eq := redefine_replace hσ ∅ counter _ _
  merge_eq := merge_replace hσ
  leaving_eq node x _ := leaving_replace hσ hcalls (fun _ => rfl) fun n _ =>
    describe_replace hσ node n x

/-! ### Declared names -/

theorem renames_declared (hσ : σ.Injective) {g : FlowGraph}
    (hcalls : g.JoinsCalls → KeepsCallNames σ) (name : String) (seed : Seed)
    (known : OrderedSet String) :
    (declared name seed OrderedSet.inter known).Renames
      (declared name seed OrderedSet.inter (known.map σ)) g (fun _ => ⟨σ, σ⟩) σ
      fun _ _ => True where
  injective := hσ
  name_eq := rfl
  direction_eq := rfl
  seed_eq := rfl
  extremal_eq := rfl
  merge_eq x y := (OrderedSet.map_inter hσ x y).symm
  leaving_eq node x _ := leaving_replace hσ hcalls (fun _ => rfl) fun n _ => by
    obtain ⟨name, kind⟩ := n
    cases kind with
    | instr i =>
      cases i with
      | declare y => exact (OrderedSet.map_insert x y).symm
      | _ => rfl
    | _ => rfl

end Flow

/-! ### Available computations -/

/-- A computation with names replaced. -/
def Computation.replace (σ : String → String) (f : Computation) : Computation :=
  ⟨f.node, σ f.target, f.value.rename ⟨σ, σ⟩⟩

theorem Computation.replace_injective (hσ : σ.Injective) : (replace σ).Injective := by
  rintro ⟨n, x, v⟩ ⟨m, y, w⟩ h
  simp only [replace, mk.injEq] at h
  rw [h.1, hσ h.2.1, Expr.rename_injective hσ hσ h.2.2]

namespace Flow

theorem keepOthers_replace (hσ : σ.Injective) (facts : OrderedSet Computation) (x : String) :
    keepOthers (facts.map (Computation.replace σ)) (σ x) =
      (keepOthers facts x).map (Computation.replace σ) := by
  refine (OrderedSet.map_filter fun f _ => ?_).symm
  simp [Computation.replace, hσ.eq_iff, Expr.reads_rename hσ]

theorem computeAt_replace (hσ : σ.Injective) (node : Nat) (i : Instr)
    (facts : OrderedSet Computation) :
    computeAt node (i.rename ⟨σ, σ⟩) (facts.map (Computation.replace σ)) =
      (computeAt node i facts).map (Computation.replace σ) := by
  unfold computeAt
  rw [Instr.hasCall_rename]
  split
  case isTrue => rfl
  case isFalse =>
    cases i with
    | declare x => exact keepOthers_replace hσ facts x
    | assign target value =>
      cases target with
      | var x =>
        simp only [Instr.rename, Expr.rename, Expr.isReusable_rename, Expr.reads_rename hσ,
          keepOthers_replace hσ]
        split
        · rw [OrderedSet.map_insert]
          rfl
        · rfl
      | access a is =>
        refine (OrderedSet.map_filter fun f _ => ?_).symm
        simp [Computation.replace, Expr.reads_rename hσ]
      | _ => rfl
    | _ => rfl

theorem renames_available (hσ : σ.Injective) {g : FlowGraph}
    (hcalls : g.JoinsCalls → KeepsCallNames σ) :
    available.Renames available g (fun _ => ⟨σ, σ⟩) (Computation.replace σ) fun _ _ => True where
  injective := Computation.replace_injective hσ
  name_eq := rfl
  direction_eq := rfl
  seed_eq := rfl
  extremal_eq := rfl
  merge_eq x y := (OrderedSet.map_inter (Computation.replace_injective hσ) x y).symm
  leaving_eq node x _ := leaving_replace hσ hcalls (fun _ => rfl) fun n _ => by
    obtain ⟨name, kind⟩ := n
    cases kind with
    | instr i => exact computeAt_replace hσ node i x
    | _ => rfl

end Flow

/-! ### Copies -/

/-- A copy with names replaced. -/
def Copy.replace (σ : String → String) (f : Copy) : Copy := ⟨σ f.target, σ f.source⟩

theorem Copy.replace_injective (hσ : σ.Injective) : (replace σ).Injective := by
  rintro ⟨x, y⟩ ⟨x', y'⟩ h
  simp only [replace, mk.injEq] at h
  rw [hσ h.1, hσ h.2]

namespace Flow

theorem keepApart_replace (hσ : σ.Injective) (facts : OrderedSet Copy) (x : String) :
    keepApart (facts.map (Copy.replace σ)) (σ x) = (keepApart facts x).map (Copy.replace σ) := by
  refine (OrderedSet.map_filter fun f _ => ?_).symm
  simp [Copy.replace, hσ.eq_iff]

theorem copyAt_replace (hσ : σ.Injective) (i : Instr) (facts : OrderedSet Copy) :
    copyAt (i.rename ⟨σ, σ⟩) (facts.map (Copy.replace σ)) =
      (copyAt i facts).map (Copy.replace σ) := by
  unfold copyAt
  rw [Instr.hasCall_rename]
  split
  case isTrue => rfl
  case isFalse =>
    cases i with
    | declare x => exact keepApart_replace hσ facts x
    | assign target value =>
      cases target with
      | var x =>
        cases value with
        | var y =>
          simp only [Instr.rename, Expr.rename, hσ.eq_iff, keepApart_replace hσ]
          split
          · rfl
          · rw [OrderedSet.map_insert]
            rfl
        | _ => exact keepApart_replace hσ facts x
      | _ => rfl
    | _ => rfl

theorem renames_copies (hσ : σ.Injective) {g : FlowGraph}
    (hcalls : g.JoinsCalls → KeepsCallNames σ) :
    copies.Renames copies g (fun _ => ⟨σ, σ⟩) (Copy.replace σ) fun _ _ => True where
  injective := Copy.replace_injective hσ
  name_eq := rfl
  direction_eq := rfl
  seed_eq := rfl
  extremal_eq := rfl
  merge_eq x y := (OrderedSet.map_inter (Copy.replace_injective hσ) x y).symm
  leaving_eq node x _ := leaving_replace hσ hcalls (fun _ => rfl) fun n _ => by
    obtain ⟨name, kind⟩ := n
    cases kind with
    | instr i => exact copyAt_replace hσ i x
    | _ => rfl

end Flow

end ParLoop
