import ParLoop.Flow.Available
import ParLoop.Flow.Copies
import ParLoop.Proofs.Body.Run
import ParLoop.Proofs.Flow.Body

/-!
# Facts that hold in every run

The facts of a flow problem hold wherever a run comes, if every instruction leaves only facts that
hold after it (`Tracks.run`). This is so of available computations (`tracks_available`) and of
copies (`tracks_copies`).
-/

namespace ParLoop

open ParLoop.Flow

variable {V A : Type} {sem : Semantics V A}

section Tracks

variable {F : Type} [Ord F] [DecidableEq F]

/-- A flow problem keeps facts that hold on every path, starting from none. -/
structure Tracks (sem : Semantics V A) (a : Analysis F) (valid : (String → V) → F → Prop) :
    Prop where
  direction_eq : a.direction = .forward
  merge_eq : a.merge = OrderedSet.inter
  extremal_eq : ∀ g, a.extremal g = ∅
  start_eq : ∀ g f facts, a.transfer g 0 ⟨f, .start⟩ facts = facts
  valid_transfer : ∀ g node f i facts target (c : Configuration V A),
    (∀ x ∈ facts, valid c.scalars x) →
    ∀ x ∈ a.transfer g node ⟨f, .instr i⟩ facts, valid (sem.execute target c i).scalars x

variable {a : Analysis F} {valid : (String → V) → F → Prop} {g : FlowGraph} {name : String}
  {body : List Instr} {cap : Nat} {r : Solution F}

/-- A set that absorbs another one by intersection is part of it. -/
theorem mem_of_absorbs (hmerge : a.merge = OrderedSet.inter) {x y : OrderedSet F}
    (hxy : a.Absorbs x y) {f : F} (hf : f ∈ x) : f ∈ y := by
  rw [← show a.merge x y = x from hxy, hmerge] at hf
  exact (OrderedSet.mem_inter.1 hf).2

variable [Std.TransOrd F] [Std.LawfulEqOrd F]

/-- The facts at a position hold whenever a run is there, if every instruction leaves only facts
that hold after it. -/
theorem exists_facts_of_run {ex : Execution V A} (hex : ex.Follows)
    (hdirection : a.direction = .forward) (hmerge : a.merge = OrderedSet.inter)
    (hextremal : a.extremal g = ∅)
    (hstart : ∀ facts, a.transfer g 0 ⟨name, .start⟩ facts = facts)
    (htransfer : ∀ node i facts target (c : Configuration V A), (∀ x ∈ facts, valid c.scalars x) →
      ∀ x ∈ a.transfer g node ⟨name, .instr i⟩ facts, valid (ex target c i).scalars x)
    (hg : g.IsGraphOf name body) (hr : a.solve g cap = .ok r) (scalars : String → V) (arrays : A)
    (n : Nat) :
    ∃ facts, r.input? (nodeOf body.length (ex.run body ⟨0, scalars, arrays⟩ n).position) =
      some facts ∧ ∀ x ∈ facts, valid (ex.run body ⟨0, scalars, arrays⟩ n).scalars x := by
  have hj := Analysis.isJoin_of_inter hmerge g
  induction n with
  | zero =>
    obtain ⟨x, y, -, hext, hy, hflow⟩ := solve_entry hg hdirection hj hr
    refine ⟨y, hy, fun f hf => ?_⟩
    have hf := mem_of_absorbs hmerge hflow hf
    rw [leaving_start hg, hstart] at hf
    have hf := mem_of_absorbs hmerge hext hf
    rw [hextremal] at hf
    exact absurd hf (OrderedSet.not_mem_empty f)
  | succ n ih =>
    obtain ⟨x, hx, hvalid⟩ := ih
    rw [Execution.run]
    generalize ex.run body ⟨0, scalars, arrays⟩ n = c at hx hvalid
    cases hi : body[c.position]? with
    | none =>
      rw [Execution.step, hi]
      exact ⟨x, hx, hvalid⟩
    | some i =>
      rw [Execution.step, hi]
      rw [nodeOf_of_lt (List.getElem?_eq_some_iff.1 hi).1] at hx
      have hstep := hex.continues hi (hg.target_mem i (List.mem_of_getElem? hi))
      obtain ⟨y, hy, hflow⟩ := solve_step hg hdirection hj hr hstep hx
      refine ⟨y, hy, fun f hf => ?_⟩
      have hf := mem_of_absorbs hmerge hflow hf
      rw [leaving_instr hg hi] at hf
      exact htransfer _ _ _ _ c hvalid f hf

/-- **The facts at a position hold whenever a run is there.** -/
theorem Tracks.run (h : Tracks sem a valid) (hg : g.IsGraphOf name body)
    (hr : a.solve g cap = .ok r) (scalars : String → V) (arrays : A) (n : Nat) :
    ∃ facts, r.input? (nodeOf body.length (sem.run body ⟨0, scalars, arrays⟩ n).position) =
      some facts ∧ ∀ x ∈ facts, valid (sem.run body ⟨0, scalars, arrays⟩ n).scalars x :=
  exists_facts_of_run sem.follows_execute h.direction_eq h.merge_eq (h.extremal_eq g)
    (h.start_eq g name) (fun node i facts target c => h.valid_transfer g node name i facts target c)
    hg hr scalars arrays n

end Tracks

/-! ### Available computations -/

/-- A variable holds the value of a computation. -/
def Computation.Valid (sem : Semantics V A) (scalars : String → V) (f : Computation) : Prop :=
  sem.eval scalars f.value = .const (scalars f.target)

/-- A computation that does not concern a variable is not touched by a new value of it. -/
theorem Computation.Valid.update {scalars : String → V} {facts : OrderedSet Computation}
    (h : ∀ f ∈ facts, f.Valid sem scalars) (x : String) (v : V) :
    ∀ f ∈ keepOthers facts x, f.Valid sem (Function.update scalars x v) := by
  intro f hf
  obtain ⟨hf, hkeep⟩ := OrderedSet.mem_filter.1 hf
  simp only [Bool.and_eq_true, decide_eq_true_eq, Bool.not_eq_true'] at hkeep
  obtain ⟨htarget, hreads⟩ := hkeep
  have heval : sem.eval (Function.update scalars x v) f.value = sem.eval scalars f.value := by
    refine sem.eval_congr fun y hy => Function.update_of_ne ?_ v scalars
    rintro rfl
    rw [hreads] at hy
    cases hy
  rw [Valid, heval, Function.update_of_ne htarget]
  exact h f hf

/-- After an assignment the variable holds the value, if the computation does not read it. -/
theorem Computation.Valid.assigned {scalars : String → V} {node : Nat} {x : String} {value : Expr}
    (hreusable : value.isReusable = true) (hreads : value.reads x = false) (arrays : A) :
    Computation.Valid sem (Function.update scalars x (sem.eval scalars value arrays).1)
      ⟨node, x, value⟩ := by
  simp only [Expr.isReusable, Bool.and_eq_true, Bool.not_eq_true'] at hreusable
  obtain ⟨v, hv⟩ : ∃ v, sem.eval scalars value = .const v :=
    sem.eval_const hreusable.1.2 hreusable.2
  have heval : sem.eval (Function.update scalars x v) value = sem.eval scalars value := by
    refine sem.eval_congr fun y hy => Function.update_of_ne ?_ v scalars
    rintro rfl
    rw [hreads] at hy
    cases hy
  rw [Valid, hv, Action.const, heval, hv, Function.update_self]

theorem valid_computeAt {node : Nat} {i : Instr} {facts : OrderedSet Computation}
    {target : String → Nat} {c : Configuration V A} (h : ∀ f ∈ facts, f.Valid sem c.scalars) :
    ∀ f ∈ computeAt node i facts, f.Valid sem (sem.execute target c i).scalars := by
  intro f hf
  unfold computeAt at hf
  split at hf
  · exact absurd hf (OrderedSet.not_mem_empty f)
  cases i with
  | declare x => exact Computation.Valid.update h x _ f hf
  | assign t value =>
    cases t with
    | var x =>
      have hothers := Computation.Valid.update h x (sem.eval c.scalars value c.arrays).1
      dsimp only at hf
      split at hf
      case isTrue hreusable =>
        simp only [Bool.and_eq_true, Bool.not_eq_true'] at hreusable
        rcases OrderedSet.mem_insert.1 hf with rfl | hf
        · exact Computation.Valid.assigned hreusable.1 hreusable.2 c.arrays
        · exact hothers f hf
      case isFalse => exact hothers f hf
    | access a is => exact h f (OrderedSet.mem_filter.1 hf).1
    | _ => exact h f hf
  | _ => exact h f hf

/-- **Available computations hold in every run.** -/
theorem tracks_available (sem : Semantics V A) : Tracks sem available (Computation.Valid sem) where
  direction_eq := rfl
  merge_eq := rfl
  extremal_eq _ := rfl
  start_eq _ _ _ := rfl
  valid_transfer _ _ _ _ _ _ _ h := valid_computeAt h

/-! ### Copies -/

/-- A variable holds the value of another one. -/
def Copy.Valid (scalars : String → V) (f : Copy) : Prop := scalars f.target = scalars f.source

theorem Copy.Valid.update {scalars : String → V} {facts : OrderedSet Copy}
    (h : ∀ f ∈ facts, f.Valid scalars) (x : String) (v : V) :
    ∀ f ∈ keepApart facts x, f.Valid (Function.update scalars x v) := by
  intro f hf
  obtain ⟨hf, hkeep⟩ := OrderedSet.mem_filter.1 hf
  simp only [Bool.and_eq_true, decide_eq_true_eq] at hkeep
  rw [Valid, Function.update_of_ne hkeep.1, Function.update_of_ne hkeep.2]
  exact h f hf

/-- An instruction changes no scalar but the one that it gives a value, and a copy gets the value of
its source. -/
structure Instr.ChangesOne (i : Instr) (scalars scalars' : String → V) : Prop where
  none : i.defined? = none → scalars' = scalars
  some : ∀ x, i.defined? = some x → ∃ v, scalars' = Function.update scalars x v
  copy : ∀ x y, i = .assign (.var x) (.var y) → scalars' = Function.update scalars x (scalars y)

theorem valid_copyAt {i : Instr} {facts : OrderedSet Copy} {scalars scalars' : String → V}
    (hi : i.hasCall = false → i.ChangesOne scalars scalars') (h : ∀ f ∈ facts, f.Valid scalars) :
    ∀ f ∈ copyAt i facts, f.Valid scalars' := by
  intro f hf
  unfold copyAt at hf
  split at hf
  · exact absurd hf (OrderedSet.not_mem_empty f)
  case isFalse hcall =>
    have hi := hi (Bool.eq_false_iff.2 hcall)
    cases i with
    | declare x =>
      obtain ⟨v, rfl⟩ := hi.some x rfl
      exact Copy.Valid.update h x v f hf
    | assign t value =>
      cases t with
      | var x =>
        obtain ⟨v, rfl⟩ := hi.some x rfl
        have hothers := Copy.Valid.update h x v
        cases value with
        | var y =>
          dsimp only at hf
          split at hf
          case isTrue => exact hothers f hf
          case isFalse hne =>
            rcases OrderedSet.mem_insert.1 hf with rfl | hf
            · rw [hi.copy x y rfl, Copy.Valid, Function.update_self, Function.update_of_ne hne]
            · exact hothers f hf
        | _ => exact hothers f hf
      | _ =>
        rw [hi.none rfl]
        exact h f hf
    | _ =>
      rw [hi.none rfl]
      exact h f hf

theorem changesOne_execute (target : String → Nat) (c : Configuration V A) (i : Instr) :
    i.ChangesOne c.scalars (sem.execute target c i).scalars := by
  constructor
  · intro hi
    cases i with
    | declare x => cases hi
    | assign t v =>
      cases t with
      | var x => cases hi
      | _ => rfl
    | _ => rfl
  · intro x hi
    cases i with
    | declare y =>
      cases hi
      exact ⟨_, rfl⟩
    | assign t v =>
      cases t with
      | var y =>
        cases hi
        exact ⟨_, rfl⟩
      | _ => cases hi
    | _ => cases hi
  · rintro x y rfl
    rfl

/-- **Copies hold in every run.** -/
theorem tracks_copies (sem : Semantics V A) : Tracks sem copies Copy.Valid where
  direction_eq := rfl
  merge_eq := rfl
  extremal_eq _ := rfl
  start_eq _ _ _ := rfl
  valid_transfer _ _ _ i _ target c h := valid_copyAt (fun _ => changesOne_execute target c i) h

end ParLoop
