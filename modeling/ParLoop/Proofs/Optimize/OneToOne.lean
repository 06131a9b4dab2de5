import Mathlib.Data.List.Nodup
import ParLoop.Analyze
import ParLoop.Proofs.Flow.Separable
import ParLoop.Proofs.FlowGraph.OneToOne
import ParLoop.Proofs.Optimize.Converge

/-!
# The optimizer under one-to-one names

The optimizer does to a program with its names replaced one-to-one what it does to the program
(`optimized_replace`). Of several equal results the reuse of computations takes the one of the first
node, not the one of the first name; and a copy is read at its source only if there is one source.
-/

namespace ParLoop

variable {σ : String → String}

/-! ### Passes -/

namespace Pass

/-- Replacements that are made under other names. -/
theorem replaceAll_map {change change' : Instr → Nat → Option Instr} {r : Renaming}
    (h : ∀ k i, change' (i.rename r) k = (change i k).map (Instr.rename r)) (body : List Instr) :
    replaceAll change' (body.map (Instr.rename r)) =
      ((replaceAll change body).1.map (Instr.rename r), (replaceAll change body).2) := by
  simp only [replaceAll, List.zipIdx_map, List.map_map, List.countP_map, Prod.mk.injEq]
  constructor
  · refine List.map_congr_left fun q _ => ?_
    simp only [Function.comp_apply, Prod.map, id, h]
    cases change q.1 q.2 <;> rfl
  · refine List.countP_congr fun q _ => ?_
    simp only [Function.comp_apply, Prod.map, id, h, Option.isSome_map]

/-- One node makes one computation, so replacing names does not change the order of facts. -/
theorem toList_map_replace {facts : OrderedSet Computation}
    (hone : ∀ f ∈ facts, ∀ f' ∈ facts, f.node = f'.node → f = f') :
    (facts.map (Computation.replace σ)).toList = facts.toList.map (Computation.replace σ) := by
  refine OrderedSet.toList_map (facts.increasing.imp_of_mem fun {a b} ha hb hlt => ?_)
  have hnode : compare a.node b.node = .lt := by
    cases hcompare : compare a.node b.node with
    | lt => rfl
    | eq =>
      cases hone a ha b hb (Std.LawfulEqOrd.eq_of_compare hcompare)
      simp at hlt
    | gt =>
      have hgt : compare a b = .gt := by
        show (compare a.node b.node).then _ = .gt
        rw [hcompare]
        rfl
      cases hgt.symm.trans hlt
  show (compare a.node b.node).then _ = .lt
  rw [hnode]
  rfl

theorem reuseAt_replace (hσ : σ.Injective) {facts : OrderedSet Computation}
    (hone : ∀ f ∈ facts, ∀ f' ∈ facts, f.node = f'.node → f = f') (i : Instr) :
    reuseAt (facts.map (Computation.replace σ)) (i.rename ⟨σ, σ⟩) =
      (reuseAt facts i).map (Instr.rename ⟨σ, σ⟩) := by
  have hexpr := Expr.rename_injective (r := ⟨σ, σ⟩) hσ hσ
  cases i with
  | assign target value =>
    cases target with
    | var x =>
      simp only [reuseAt, Instr.rename, Expr.rename, Expr.isReusable_rename, Expr.reads_rename hσ]
      split
      · rw [toList_map_replace hone, List.find?_map, Option.map_map, Option.map_map]
        have hfind : (fun f : Computation => decide (f.value = value.rename ⟨σ, σ⟩) &&
            decide (f.target ≠ σ x)) ∘ Computation.replace σ =
              fun f => decide (f.value = value) && decide (f.target ≠ x) :=
          funext fun f => by simp [Computation.replace, hexpr.eq_iff, hσ.eq_iff]
        rw [hfind]
        rfl
      · rfl
    | _ => rfl
  | _ => rfl

theorem mem_sourcesOf {facts : OrderedSet Copy} {x y : String} :
    y ∈ Copy.sourcesOf facts x ↔ ⟨x, y⟩ ∈ facts := by
  simp only [Copy.sourcesOf, List.mem_map, List.mem_filter, decide_eq_true_eq]
  constructor
  · rintro ⟨⟨z, w⟩, ⟨hf, rfl⟩, rfl⟩
    exact hf
  · exact fun h => ⟨_, ⟨h, rfl⟩, rfl⟩

theorem nodup_sourcesOf (facts : OrderedSet Copy) (x : String) :
    (Copy.sourcesOf facts x).Nodup := by
  refine List.Nodup.map_on (fun f hf f' hf' heq => ?_) (facts.nodup_toList.filter _)
  obtain ⟨y, z⟩ := f
  obtain ⟨y', z'⟩ := f'
  have hy := of_decide_eq_true (List.mem_filter.1 hf).2
  have hy' := of_decide_eq_true (List.mem_filter.1 hf').2
  cases heq
  cases hy
  cases hy'
  rfl

theorem sourcesOf_replace (hσ : σ.Injective) (facts : OrderedSet Copy) (x : String) :
    (Copy.sourcesOf (facts.map (Copy.replace σ)) (σ x)).Perm ((Copy.sourcesOf facts x).map σ) := by
  refine (List.perm_ext_iff_of_nodup (nodup_sourcesOf _ _)
    ((nodup_sourcesOf facts x).map hσ)).2 fun y => ?_
  rw [mem_sourcesOf, OrderedSet.mem_map, List.mem_map]
  constructor
  · rintro ⟨⟨z, w⟩, hf, heq⟩
    simp only [Copy.replace, Copy.mk.injEq] at heq
    exact ⟨w, mem_sourcesOf.2 (hσ heq.1 ▸ hf), heq.2⟩
  · rintro ⟨w, hw, rfl⟩
    exact ⟨⟨x, w⟩, mem_sourcesOf.1 hw, rfl⟩

theorem sourceOf_replace (hσ : σ.Injective) (facts : OrderedSet Copy) (x : String) :
    sourceOf (facts.map (Copy.replace σ)) (σ x) =
      (sourceOf facts x).map (Expr.rename ⟨σ, σ⟩) := by
  have hperm := sourcesOf_replace hσ facts x
  unfold sourceOf
  -- Only the number of sources matters, and which one it is if it is one.
  match hsources : Copy.sourcesOf facts x with
  | [] =>
    rw [hsources, List.map_nil, List.perm_nil] at hperm
    rw [hperm]
    rfl
  | [y] =>
    rw [hsources, List.map_singleton, List.perm_singleton] at hperm
    rw [hperm]
    rfl
  | y :: z :: ys =>
    rw [hsources] at hperm
    match hsources' : Copy.sourcesOf (facts.map (Copy.replace σ)) (σ x), hperm.length_eq with
    | _ :: _ :: _, _ => rfl

theorem forwardAt_replace (hσ : σ.Injective) (facts : OrderedSet Copy) (i : Instr) :
    forwardAt (facts.map (Copy.replace σ)) (i.rename ⟨σ, σ⟩) =
      (forwardAt facts i).map (Instr.rename ⟨σ, σ⟩) := by
  unfold forwardAt
  rw [← Instr.rename_substitute (sourceOf_replace hσ facts)]
  by_cases hsame : i.substitute (sourceOf facts) = i
  · rw [if_pos hsame, if_pos (congrArg _ hsame)]
    rfl
  · rw [if_neg hsame, if_neg fun h => hsame (Instr.rename_injective hσ hσ h)]
    rfl

/-- What was computed at a node is computed there by its instruction. -/
theorem eq_of_node_eq {g : FlowGraph} {cap : Nat} {s : Flow.Solution Computation}
    (hg : g.Coherent) (hs : Flow.available.solve g cap = .ok s) {node : Nat} :
    ∀ f ∈ s.factsAt node, ∀ f' ∈ s.factsAt node, f.node = f'.node → f = f' := by
  have hmade : ∀ f ∈ s.factsAt node, ∃ u i, g.instr? u = some i ∧ f.MadeBy u i :=
    fun f hf => Flow.made_of_mem_factsAt hg rfl rfl (separable_available g) hs hf
  intro f hf f' hf' heq
  obtain ⟨u, i, hi, hu, hinstr, -⟩ := hmade f hf
  obtain ⟨u', i', hi', hu', hinstr', -⟩ := hmade f' hf'
  have hnode : u = u' := hu.symm.trans (heq.trans hu')
  rw [← hnode, hi, hinstr, hinstr'] at hi'
  obtain ⟨n, x, v⟩ := f
  obtain ⟨n', x', v'⟩ := f'
  simp only [Option.some.injEq, Instr.assign.injEq, Expr.var.injEq] at hi'
  simp only [Computation.mk.injEq]
  exact ⟨heq, hi'⟩

/-- Two outcomes of a search for replacements fail together, or find the same under other names. -/
def SameChanges (σ : String → String) (x y : Except AnalysisError (Instr → Nat → Option Instr)) :
    Prop :=
  (∃ e, x = .error e ∧ y = .error e) ∨ ∃ change change', x = .ok change ∧ y = .ok change' ∧
    ∀ k i, change' (i.rename ⟨σ, σ⟩) k = (change i k).map (Instr.rename ⟨σ, σ⟩)

/-- What is found to replace by the facts at the nodes of a graph. -/
theorem sameChanges_solve {F : Type} [Ord F] [Std.TransOrd F] [Std.LawfulEqOrd F] [DecidableEq F]
    {a : Flow.Analysis F} {φ : F → F} {g : FlowGraph} {cap : Nat} (hg : g.Coherent)
    (ha : a.Renames a g (fun _ => ⟨σ, σ⟩) φ fun _ _ => True)
    {change : OrderedSet F → Instr → Option Instr}
    (hchange : ∀ s, a.solve g cap = .ok s → ∀ node i,
      change ((s.factsAt node).map φ) (i.rename ⟨σ, σ⟩) =
        (change (s.factsAt node) i).map (Instr.rename ⟨σ, σ⟩)) (name : String) :
    SameChanges σ
      (a.solve g cap >>= fun s => pure fun i index =>
        (g.position? name index).bind fun node => change (s.factsAt node) i)
      (a.solve (g.rename fun _ => ⟨σ, σ⟩) cap >>= fun s => pure fun i index =>
        ((g.rename fun _ => ⟨σ, σ⟩).position? name index).bind fun node =>
          change (s.factsAt node) i) := by
  rw [ha.solve_eq hg (Flow.Analysis.keeps_true _ g) cap]
  cases hs : a.solve g cap with
  | error e => exact Or.inl ⟨e, rfl, rfl⟩
  | ok s =>
    refine Or.inr ⟨_, _, rfl, rfl, fun k i => ?_⟩
    rw [FlowGraph.position?_rename]
    cases g.position? name k with
    | none => rfl
    | some node =>
      simp only [Option.bind_some, Flow.Solution.factsAt_map]
      exact hchange s hs node i

/-- What a pass finds to replace under other names. -/
theorem changes_replace (hσ : σ.Injective) (p : Pass) (f : Procedure) (cap : Nat) :
    SameChanges σ (p.changes f cap) (p.changes (f.rename ⟨σ, σ⟩) cap) := by
  unfold changes
  rw [FlowGraph.ofProcedure_rename]
  cases hofProcedure : FlowGraph.ofProcedure f with
  | error e => exact Or.inl ⟨e, rfl, rfl⟩
  | ok g =>
    have hg := FlowGraph.ofProcedure_isGraphOf hofProcedure
    have hcalls : g.JoinsCalls → KeepsCallNames σ := fun h => absurd h hg.not_joinsCalls
    cases p with
    | reuse =>
      exact sameChanges_solve hg.coherent (Flow.renames_available hσ hcalls)
        (fun s hs node i => reuseAt_replace hσ (eq_of_node_eq hg.coherent hs) i) f.name
    | forward =>
      exact sameChanges_solve hg.coherent (Flow.renames_copies hσ hcalls)
        (fun s _ node i => forwardAt_replace hσ (s.factsAt node) i) f.name

theorem apply_of_changes {p : Pass} {f : Procedure} {cap : Nat}
    {change : Instr → Nat → Option Instr} (h : p.changes f cap = .ok change) :
    p.apply f cap =
      .ok ({ f with body := (replaceAll change f.body).1 }, (replaceAll change f.body).2) := by
  unfold apply
  rw [h]
  rfl

/-- **A pass under one-to-one names.** -/
theorem apply_replace (hσ : σ.Injective) (p : Pass) (f : Procedure) (cap : Nat) :
    p.apply (f.rename ⟨σ, σ⟩) cap =
      (p.apply f cap).map fun q => (q.1.rename ⟨σ, σ⟩, q.2) := by
  rcases changes_replace hσ p f cap with ⟨e, herror, herror'⟩ | ⟨change, change', hok, hok', h⟩
  · unfold apply
    rw [herror, herror']
    rfl
  · rw [apply_of_changes hok, apply_of_changes hok', Procedure.rename,
      replaceAll_map h]
    rfl

end Pass

/-! ### Rounds -/

namespace Optimizer

variable {α β γ : Type} {φ : α → β}

/-- Work under other names does what the work does. -/
def Commutes (φ : α → β) (m : Work α γ) (m' : Work β γ) : Prop :=
  ∀ s t, m' (φ s, t) =
    match m (s, t) with
    | .ok a (s, t) => .ok a (φ s, t)
    | .error e (s, t) => .error e (φ s, t)

theorem commutes_pure (a : γ) : Commutes φ (pure a) (pure a) := fun _ _ => rfl

theorem Commutes.bind {δ : Type} {m : Work α γ} {m' : Work β γ} {k : γ → Work α δ}
    {k' : γ → Work β δ} (hm : Commutes φ m m') (hk : ∀ a, Commutes φ (k a) (k' a)) :
    Commutes φ (m >>= k) (m' >>= k') := by
  intro s t
  show EStateM.bind m' k' (φ s, t) = match EStateM.bind m k (s, t) with
    | .ok a (s, t) => .ok a (φ s, t)
    | .error e (s, t) => .error e (φ s, t)
  unfold EStateM.bind
  rw [hm s t]
  cases m (s, t) with
  | ok a s => exact hk a s.1 s.2
  | error e s => rfl

theorem commutes_step (hσ : σ.Injective) (cap : Nat) (p : Pass) :
    Commutes (Procedure.rename ⟨σ, σ⟩) (step cap p) (step cap p) := by
  intro f t
  rw [step_eq, step_eq, Pass.apply_replace hσ]
  rcases p.apply f cap with e | ⟨f', - | count⟩ <;> rfl

theorem commutes_rounds (hσ : σ.Injective) (cap n : Nat) :
    Commutes (Procedure.rename ⟨σ, σ⟩) (rounds cap n) (rounds cap n) := by
  induction n with
  | zero => exact fun _ _ => rfl
  | succ n ih =>
    refine (commutes_step hσ cap .reuse).bind fun reused =>
      (commutes_step hσ cap .forward).bind fun forwarded => ?_
    split
    · exact ih
    · exact commutes_pure ()

theorem commutes_within (hσ : σ.Injective) {f : Procedure}
    {put put' : Program → Procedure → Program}
    (hput : ∀ p f, (put p f).replace σ = put' (p.replace σ) (f.rename ⟨σ, σ⟩)) (cap n : Nat) :
    Commutes (Program.replace σ) (within f put (rounds cap n))
      (within (f.rename ⟨σ, σ⟩) put' (rounds cap n)) := by
  intro p t
  unfold within
  dsimp only
  rw [commutes_rounds hσ cap n f t]
  cases rounds cap n (f, t) with
  | ok u s => simp only [hput]
  | error e s => simp only [hput]

theorem commutes_roundsOver (hσ : σ.Injective) (cap n : Nat) (es : List (String × Procedure)) :
    Commutes (Program.replace σ) (roundsOver cap n es)
      (roundsOver cap n (es.map fun e => (e.1, e.2.rename ⟨σ, σ⟩))) := by
  induction es with
  | nil => exact commutes_pure ()
  | cons e es ih =>
    refine (commutes_within hσ (fun p f => ?_) cap n).bind fun _ => ih
    simp only [store, Program.replace, NameMap.mapValues_insert]

theorem commutes_work (hσ : σ.Injective) (cap n : Nat) :
    Commutes (Program.replace σ) (work cap n) (work cap n) := by
  intro p t
  have hroot : Commutes (Program.replace σ)
      (within p.root (fun p f => { p with body := f.body }) (rounds cap n))
      (within (p.root.rename ⟨σ, σ⟩) (fun p f => { p with body := f.body }) (rounds cap n)) :=
    commutes_within hσ (fun _ _ => rfl) cap n
  rw [work_eq, work_eq, show (p.replace σ).root = p.root.rename ⟨σ, σ⟩ from rfl, hroot p t]
  cases within p.root (fun p f => { p with body := f.body }) (rounds cap n) (p, t) with
  | ok u s => exact commutes_roundsOver hσ cap n p.procedures.entries s.1 s.2
  | error e s => rfl

end Optimizer

/-- **The optimizer under one-to-one names.** -/
theorem Program.optimized_replace (hσ : σ.Injective) (p : Program) (c : Config) :
    (p.replace σ).optimized c = (p.optimized c).map fun q => (q.1.replace σ, q.2) := by
  unfold optimized
  split
  · unfold optimize
    rw [Optimizer.commutes_work hσ]
    cases Optimizer.work c.cap c.maxRounds (p, {}) <;> rfl
  · rfl

end ParLoop
