import ParLoop.Flow.Available
import ParLoop.Flow.Copies
import ParLoop.Flow.Names
import ParLoop.Proofs.Flow.Stable

/-!
# Facts that are made and kept one by one

At a node of a flow problem some facts are made, and of the facts that reach the node some are kept,
each by itself. This is so for available computations (`separable_available`), copies
(`separable_copies`) and declared names (`separable_declared`), at every node of every graph. What
made a fact is said by the instruction alone.
-/

namespace ParLoop

namespace Flow

variable {F : Type} [Ord F] {t : OrderedSet F → OrderedSet F} {made : F → Prop}

/-- A function on facts makes some facts, and keeps others or not, each by itself. -/
def Separable (t : OrderedSet F → OrderedSet F) (made : F → Prop) : Prop :=
  ∃ kept : F → Prop, ∀ x f, f ∈ t x ↔ made f ∨ kept f ∧ f ∈ x

theorem Separable.congr {made' : F → Prop} (h : Separable t made) (hmade : ∀ f, made f ↔ made' f) :
    Separable t made' := by
  obtain ⟨kept, hkept⟩ := h
  exact ⟨kept, fun x f => by rw [hkept, hmade]⟩

theorem separable_id : Separable (fun x : OrderedSet F => x) fun _ => False :=
  ⟨fun _ => True, fun x f => by simp⟩

theorem separable_empty : Separable (fun _ : OrderedSet F => ∅) fun _ => False :=
  ⟨fun _ => False, fun _ f => by simp [OrderedSet.not_mem_empty]⟩

theorem separable_filter (p : F → Bool) : Separable (·.filter p) fun _ => False := by
  refine ⟨fun f => p f = true, fun x f => ?_⟩
  rw [OrderedSet.mem_filter]
  simp [and_comm]

theorem Separable.insert [Std.TransOrd F] [Std.LawfulEqOrd F] (h : Separable t made) (c : F) :
    Separable (fun x => (t x).insert c) fun f => f = c ∨ made f := by
  obtain ⟨kept, hkept⟩ := h
  refine ⟨kept, fun x f => ?_⟩
  rw [OrderedSet.mem_insert, hkept]
  exact or_assoc.symm

/-! ### Nodes

Every problem here treats the nodes of calls alike; they differ in what an instruction does. -/

/-- What holds at the nodes of instructions and makes no fact elsewhere holds at every node. -/
theorem separable_leaving {a : Analysis F} {g : FlowGraph} {madeBy : Instr → F → Prop} {node : Nat}
    (hinstr : ∀ name i, Separable (a.transfer g node ⟨name, .instr i⟩) (madeBy i))
    (hother : ∀ n : Node, n.instr? = none → Separable (a.transfer g node n) fun _ => False) :
    Separable (a.leaving g node) fun f => ∃ i, g.instr? node = some i ∧ madeBy i f := by
  obtain ⟨hn, heq⟩ | ⟨n, p, hn, hcrosses, heq⟩ | ⟨n, hn, -, heq⟩ := a.leaving_forms g node <;>
    simp only [heq, FlowGraph.instr?, hn, Option.bind_some, Option.bind_none]
  · exact separable_id.congr fun f => by simp
  · exact (separable_filter _).congr fun f => by simp [Node.instr?_of_crosses hcrosses]
  · obtain ⟨name, kind⟩ := n
    cases kind with
    | instr i => exact (hinstr name i).congr fun f => by simp [Node.instr?]
    | _ => exact (hother _ rfl).congr fun f => by simp [Node.instr?]

end Flow

open ParLoop.Flow

/-! ### Available computations -/

/-- The computation that an instruction makes at a node. -/
def Computation.MadeBy (node : Nat) (i : Instr) (f : Computation) : Prop :=
  f.node = node ∧ i = .assign (.var f.target) f.value ∧ i.hasCall = false ∧
    (f.value.isReusable && !f.value.reads f.target) = true

theorem separable_computeAt (node : Nat) (i : Instr) :
    Separable (computeAt node i) (Computation.MadeBy node i) := by
  unfold computeAt
  split
  -- A call may assign any variable, so no computation outlives it.
  case isTrue hcall =>
    exact separable_empty.congr fun f => by simp [Computation.MadeBy, hcall]
  case isFalse hcall =>
    have hcall : i.hasCall = false := by simpa using hcall
    cases i with
    | assign target value =>
      cases target with
      | var x =>
        dsimp only
        split
        case isTrue h =>
          -- A reusable value that does not read its own target is remembered.
          refine ((separable_filter _).insert (⟨node, x, value⟩ : Computation)).congr fun f => ?_
          obtain ⟨n, x', v⟩ := f
          constructor
          · rintro (hf | hf)
            · cases hf
              exact ⟨rfl, rfl, hcall, h⟩
            · exact hf.elim
          · rintro ⟨rfl, hi, -, -⟩
            cases hi
            exact Or.inl rfl
        case isFalse h =>
          refine (separable_filter _).congr fun f => ⟨False.elim, ?_⟩
          rintro ⟨-, hi, -, hf⟩
          cases hi
          exact h hf
      | access a is => exact (separable_filter _).congr fun f => by simp [Computation.MadeBy]
      | _ => exact separable_id.congr fun f => by simp [Computation.MadeBy]
    | declare x => exact (separable_filter _).congr fun f => by simp [Computation.MadeBy]
    | _ => exact separable_id.congr fun f => by simp [Computation.MadeBy]

theorem separable_available (g : FlowGraph) (node : Nat) :
    Separable (available.leaving g node)
      fun f => ∃ i, g.instr? node = some i ∧ f.MadeBy node i := by
  refine separable_leaving (fun name i => separable_computeAt node i) fun n hn => ?_
  obtain ⟨name, kind⟩ := n
  cases kind with
  | instr i => cases hn
  | invocation _ _ => exact separable_empty
  | start | stop | enter _ _ | leave _ _ => exact separable_id

/-! ### Copies -/

/-- The copy that an instruction makes. -/
def Copy.MadeBy (i : Instr) (f : Copy) : Prop :=
  i = .assign (.var f.target) (.var f.source) ∧ f.source ≠ f.target

theorem separable_copyAt (i : Instr) : Separable (copyAt i) (Copy.MadeBy i) := by
  unfold copyAt
  split
  case isTrue hcall =>
    refine separable_empty.congr fun f => ⟨False.elim, ?_⟩
    rintro ⟨rfl, -⟩
    cases hcall
  case isFalse =>
    cases i with
    | assign target value =>
      cases target with
      | var x =>
        cases value with
        | var y =>
          dsimp only
          split
          case isTrue h =>
            -- A variable that is copied to itself gives no copy.
            refine (separable_filter _).congr fun f => ⟨False.elim, ?_⟩
            rintro ⟨hi, hne⟩
            cases hi
            exact hne h
          case isFalse h =>
            refine ((separable_filter _).insert (⟨x, y⟩ : Copy)).congr fun f => ?_
            obtain ⟨x', y'⟩ := f
            constructor
            · rintro (hf | hf)
              · cases hf
                exact ⟨rfl, h⟩
              · exact hf.elim
            · rintro ⟨hi, -⟩
              cases hi
              exact Or.inl rfl
        | _ => exact (separable_filter _).congr fun f => by simp [Copy.MadeBy]
      | _ => exact separable_id.congr fun f => by simp [Copy.MadeBy]
    | declare x => exact (separable_filter _).congr fun f => by simp [Copy.MadeBy]
    | _ => exact separable_id.congr fun f => by simp [Copy.MadeBy]

theorem separable_copies (g : FlowGraph) (node : Nat) :
    Separable (copies.leaving g node) fun f => ∃ i, g.instr? node = some i ∧ f.MadeBy i := by
  refine separable_leaving (fun name i => separable_copyAt i) fun n hn => ?_
  obtain ⟨name, kind⟩ := n
  cases kind with
  | instr i => cases hn
  | invocation _ _ => exact separable_empty
  | start | stop | enter _ _ | leave _ _ => exact separable_id

/-! ### Declared names -/

theorem separable_declared {merge : OrderedSet String → OrderedSet String → OrderedSet String}
    (name : String) (seed : Seed) (known : OrderedSet String) (g : FlowGraph) (node : Nat) :
    Separable ((declared name seed merge known).leaving g node)
      fun x => ∃ i, g.instr? node = some i ∧ i = .declare x := by
  refine separable_leaving (fun name i => ?_) fun n hn => ?_
  · cases i with
    | declare y =>
      exact (separable_id.insert y).congr fun x => by simp [eq_comm]
    | _ => exact separable_id.congr fun x => by simp
  · obtain ⟨name, kind⟩ := n
    cases kind with
    | instr i => cases hn
    | start | stop | invocation _ _ | enter _ _ | leave _ _ => exact separable_id

/-! ### What was made -/

namespace Flow

variable {F : Type} [Ord F] [DecidableEq F] {a : Analysis F} {g : FlowGraph} {made : Nat → F → Prop}
  {cap : Nat} {r : Solution F}

/-- A fact that is kept on every path was made at some node, if none is there at first. -/
theorem made_of_mem_factsAt (hg : g.Coherent) (hmerge : a.merge = OrderedSet.inter)
    (hext : a.extremal g = ∅) (hmade : ∀ node, Separable (a.leaving g node) (made node))
    (h : a.solve g cap = .ok r) {node : Nat} {f : F} (hf : f ∈ r.factsAt node) :
    ∃ u, made u f := by
  rw [Solution.factsAt] at hf
  cases hx : r.input? node with
  | none =>
    rw [hx] at hf
    exact absurd hf (OrderedSet.not_mem_empty f)
  | some x =>
    rw [hx] at hf
    -- Merging adds no facts, so only the nodes on the way can have made one.
    refine Analysis.solve_induct (P := fun _ x => ∀ f ∈ x, ∃ u, made u f) hg ?_ ?_ ?_ h hx f hf
    · rw [hext]
      exact fun f hf => absurd hf (OrderedSet.not_mem_empty f)
    · intro e _ x hx f hf
      obtain ⟨kept, hkept⟩ := hmade e.source
      obtain hf | ⟨-, hf⟩ := (hkept x f).1 hf
      · exact ⟨_, hf⟩
      · exact hx f hf
    · intro _ x y hx _ f hf
      rw [hmerge] at hf
      exact hx f (OrderedSet.mem_inter.1 hf).1

end Flow

end ParLoop
