import Mathlib.Algebra.Order.BigOperators.Group.List
import Mathlib.Algebra.Order.Group.Nat
import Mathlib.Algebra.Ring.Nat
import Mathlib.Data.List.Induction
import Mathlib.Data.Prod.Lex
import ParLoop.Proofs.Expr.Substitute
import ParLoop.Proofs.Flow.Paths
import ParLoop.Proofs.FlowGraph.Outline
import ParLoop.Proofs.Optimize.LockStep

/-!
# Passes bring a body closer to its end

Neither pass changes the outline of a body. A pass that reuses results leaves fewer computations. A
pass that reads copies at their sources leaves as many, and every read it changes goes to a variable
that was set earlier on a path to the read: a copy is known only if its source was not set since.
How early a variable was set is said by `lastSet`, along a path that is chosen once for each
position (`Trail`). So a body gets smaller in the order of `Trail.size` whenever a pass changes it
(`size_apply_lt`).
-/

namespace ParLoop

/-! ### What a pass keeps -/

namespace Instr

/-- Whether an instruction stores the result of a computation that may be reused. -/
def computes : Instr → Bool
  | .assign (.var _) value => value.isReusable
  | _ => false

theorem outline_substitute (f : String → Option Expr) (i : Instr) :
    (i.substitute f).outline = i.outline := by
  cases i with
  | assign target value => cases target <;> rfl
  | _ => rfl

theorem computes_substitute {f : String → Option Expr} (hf : Expr.IsRenaming f) (i : Instr) :
    (i.substitute f).computes = i.computes := by
  cases i with
  | assign target value =>
    cases target with
    | var x => exact Expr.isReusable_substitute hf value
    | _ => rfl
  | _ => rfl

end Instr

namespace Pass

variable {change : Instr → Nat → Option Instr} {body : List Instr}

/-- A pass that counts no change has found none. -/
theorem replaceAll_eq_zero :
    (replaceAll change body).2 = 0 ↔ ∀ k i, body[k]? = some i → change i k = none := by
  simp only [replaceAll, List.countP_eq_zero, List.forall_mem_map, List.mem_zipIdx_iff_getElem?,
    Bool.not_eq_true, Option.isSome_eq_false_iff, Option.isNone_iff_eq_none, Prod.forall]
  exact ⟨fun h k i hi => h i k hi, fun h i k hi => h k i hi⟩

theorem replaceAll_eq_self (h : (replaceAll change body).2 = 0) :
    (replaceAll change body).1 = body := by
  refine List.ext_getElem? fun k => ?_
  rw [getElem?_replaceAll]
  cases hi : body[k]? with
  | none => rfl
  | some i => simp [replaceAll_eq_zero.1 h k i hi]

theorem apply_eq_replaceAll {p : Pass} {f f' : Procedure} {cap count : Nat}
    (h : p.apply f cap = .ok (f', count)) : ∃ change, p.changes f cap = .ok change ∧
      f' = { f with body := (replaceAll change f.body).1 } ∧
      count = (replaceAll change f.body).2 := by
  obtain ⟨change, hchange, h⟩ := Outcome.bind_eq_ok.1 h
  cases h
  exact ⟨change, hchange, rfl, rfl⟩

/-- What a pass over the graph of a procedure looks at: the facts at the node of each position. -/
theorem changes_eq_ok {p : Pass} {f : Procedure} {cap : Nat}
    (h : p.changes f cap = .ok change) : ∃ g, FlowGraph.ofProcedure f = .ok g ∧
      match p with
      | .reuse => ∃ s, Flow.available.solve g cap = .ok s ∧
        ∀ k i, f.body[k]? = some i → change i k = reuseAt (s.factsAt (k + 2)) i
      | .forward => ∃ s, Flow.copies.solve g cap = .ok s ∧
        ∀ k i, f.body[k]? = some i → change i k = forwardAt (s.factsAt (k + 2)) i := by
  obtain ⟨g, hg, h⟩ := Outcome.bind_eq_ok.1 h
  refine ⟨g, hg, ?_⟩
  have hposition : ∀ k i, f.body[k]? = some i → g.position? f.name k = some (k + 2) :=
    fun k i hi => (FlowGraph.ofProcedure_isGraphOf hg).position_eq k
      (List.getElem?_eq_some_iff.1 hi).1
  cases p with
  | reuse =>
    obtain ⟨s, hs, h⟩ := Outcome.bind_eq_ok.1 h
    cases h
    exact ⟨s, hs, fun k i hi => by simp only [hposition k i hi, Option.bind_some]⟩
  | forward =>
    obtain ⟨s, hs, h⟩ := Outcome.bind_eq_ok.1 h
    cases h
    exact ⟨s, hs, fun k i hi => by simp only [hposition k i hi, Option.bind_some]⟩

theorem outline_reuseAt {facts : OrderedSet Computation} {i j : Instr}
    (h : reuseAt facts i = some j) : j.outline = i.outline := by
  obtain ⟨x, f, -, rfl, rfl⟩ := reuseAt_eq_some h
  rfl

/-- **A pass keeps the outline of a body.** -/
theorem apply_sameOutline {p : Pass} {f f' : Procedure} {cap count : Nat}
    (h : p.apply f cap = .ok (f', count)) : SameOutline f.body f'.body := by
  obtain ⟨change, hchange, rfl, -⟩ := apply_eq_replaceAll h
  have hkeeps : ∀ k i j, f.body[k]? = some i → change i k = some j → j.outline = i.outline := by
    intro k i j hi hj
    obtain ⟨g, -, hfacts⟩ := changes_eq_ok hchange
    cases p with
    | reuse =>
      obtain ⟨s, -, hs⟩ := hfacts
      exact outline_reuseAt ((hs k i hi).symm.trans hj)
    | forward =>
      obtain ⟨s, -, hs⟩ := hfacts
      rw [forwardAt_eq_some ((hs k i hi).symm.trans hj), Instr.outline_substitute]
  refine List.ext_getElem? fun k => ?_
  rw [List.getElem?_map, List.getElem?_map, getElem?_replaceAll]
  cases hi : f.body[k]? with
  | none => rfl
  | some i =>
    cases hj : change i k with
    | none => simp [hj]
    | some j => simp [hj, hkeeps k i j hi hj]

/-! ### Weighing a body -/

/-- The sum of the weights of the instructions at their positions. -/
def weigh (weight : Instr → Nat → Nat) (body : List Instr) : Nat :=
  (body.zipIdx.map fun (i, k) => weight i k).sum

theorem weigh_replaceAll (weight : Instr → Nat → Nat) :
    weigh weight (replaceAll change body).1 =
      weigh (fun i k => weight ((change i k).getD i) k) body := by
  unfold weigh
  congr 1
  refine List.ext_getElem? fun k => ?_
  rw [List.getElem?_map, List.getElem?_map, List.getElem?_zipIdx, List.getElem?_zipIdx,
    getElem?_replaceAll]
  cases body[k]? <;> simp

theorem weigh_le {weight weight' : Instr → Nat → Nat}
    (h : ∀ k i, body[k]? = some i → weight i k ≤ weight' i k) :
    weigh weight body ≤ weigh weight' body := by
  refine List.sum_le_sum fun ik hik => h ik.2 ik.1 ?_
  simpa using List.mem_zipIdx_iff_getElem?.1 hik

theorem weigh_lt {weight weight' : Instr → Nat → Nat}
    (h : ∀ k i, body[k]? = some i → weight i k ≤ weight' i k) {k : Nat} {i : Instr}
    (hi : body[k]? = some i) (hlt : weight i k < weight' i k) :
    weigh weight body < weigh weight' body := by
  refine List.sum_lt_sum _ _ (fun ik hik => h ik.2 ik.1 ?_) ⟨(i, k), ?_, hlt⟩
  · simpa using List.mem_zipIdx_iff_getElem?.1 hik
  · exact List.mem_zipIdx_iff_getElem?.2 hi

/-- A body gets lighter if every replaced instruction does. -/
theorem weigh_replaceAll_lt {weight : Instr → Nat → Nat}
    (h : ∀ k i j, body[k]? = some i → change i k = some j → weight j k < weight i k)
    (hcount : (replaceAll change body).2 ≠ 0) :
    weigh weight (replaceAll change body).1 < weigh weight body := by
  rw [weigh_replaceAll]
  rw [Ne, replaceAll_eq_zero, not_forall] at hcount
  obtain ⟨k, hcount⟩ := hcount
  rw [not_forall] at hcount
  obtain ⟨i, hcount⟩ := hcount
  rw [Classical.not_imp] at hcount
  obtain ⟨hi, hsome⟩ := hcount
  obtain ⟨j, hj⟩ := Option.ne_none_iff_exists'.1 hsome
  refine weigh_lt (fun k i hi => ?_) hi ?_
  · cases hj : change i k with
    | none => exact le_rfl
    | some j => exact (h k i j hi hj).le
  · rw [hj]
    exact h k i j hi hj

/-- It weighs the same if every replaced instruction does. -/
theorem weigh_replaceAll_eq {weight : Instr → Nat → Nat}
    (h : ∀ k i j, body[k]? = some i → change i k = some j → weight j k = weight i k) :
    weigh weight (replaceAll change body).1 = weigh weight body := by
  have heq : ∀ k i, body[k]? = some i → weight ((change i k).getD i) k = weight i k := by
    intro k i hi
    cases hj : change i k with
    | none => rfl
    | some j => exact h k i j hi hj
  rw [weigh_replaceAll]
  exact le_antisymm (weigh_le fun k i hi => (heq k i hi).le)
    (weigh_le fun k i hi => (heq k i hi).ge)

end Pass

/-! ### When a variable was last set -/

/-- The number of the step at which a path last sets a variable, 0 if it never does. -/
def lastSet (sets : Nat → Option String) (x : String) (ns : List Nat) : Nat :=
  ns.zipIdx.foldl (fun last (u, k) => if sets u = some x then k + 1 else last) 0

section LastSet

variable {sets : Nat → Option String} {x : String} {ns : List Nat} {u : Nat}

theorem lastSet_append : lastSet sets x (ns ++ [u]) =
    if sets u = some x then ns.length + 1 else lastSet sets x ns := by
  simp [lastSet, List.zipIdx_append]

theorem lastSet_le : lastSet sets x ns ≤ ns.length := by
  induction ns using List.reverseRecOn with
  | nil => exact le_rfl
  | append_singleton ns u ih =>
    rw [lastSet_append, List.length_append, List.length_singleton]
    split <;> omega

end LastSet

/-- The variable that a node sets. -/
def FlowGraph.sets (g : FlowGraph) (node : Nat) : Option String :=
  (g.instr? node).bind Instr.defined?

namespace Flow

/-- A copy that is known after an instruction was made by it, or was known before and neither of
its variables is set. -/
theorem mem_copyAt {i : Instr} {facts : OrderedSet Copy} {f : Copy} (h : f ∈ copyAt i facts) :
    f.MadeBy i ∨ f ∈ facts ∧ i.defined? ≠ some f.target ∧ i.defined? ≠ some f.source := by
  have hapart : ∀ {x : String}, i.defined? = some x → f ∈ keepApart facts x →
      f ∈ facts ∧ i.defined? ≠ some f.target ∧ i.defined? ≠ some f.source := by
    intro x hx hf
    obtain ⟨hf, hne⟩ := OrderedSet.mem_filter.1 hf
    simp only [Bool.and_eq_true, decide_eq_true_eq] at hne
    rw [hx]
    exact ⟨hf, fun h => hne.1 (Option.some_inj.1 h).symm, fun h => hne.2 (Option.some_inj.1 h).symm⟩
  unfold copyAt at h
  split at h
  · exact absurd h (OrderedSet.not_mem_empty f)
  cases i with
  | declare x => exact Or.inr (hapart rfl h)
  | assign target value =>
    cases target with
    | var x =>
      cases value with
      | var y =>
        dsimp only at h
        split at h
        · exact Or.inr (hapart rfl h)
        case isFalse hne =>
          rcases OrderedSet.mem_insert.1 h with rfl | h
          · exact Or.inl ⟨rfl, hne⟩
          · exact Or.inr (hapart rfl h)
      | _ => exact Or.inr (hapart rfl h)
    | _ => exact Or.inr ⟨h, by simp [Instr.defined?], by simp [Instr.defined?]⟩
  | _ => exact Or.inr ⟨h, by simp [Instr.defined?], by simp [Instr.defined?]⟩

theorem mem_leaving_copies {g : FlowGraph} {u : Nat} {facts : OrderedSet Copy} {f : Copy}
    (h : f ∈ copies.leaving g u facts) :
    (∃ i, g.instr? u = some i ∧ f.MadeBy i) ∨
      f ∈ facts ∧ g.sets u ≠ some f.target ∧ g.sets u ≠ some f.source := by
  obtain ⟨hn, heq⟩ | ⟨n, p, hn, hcrosses, heq⟩ | ⟨n, hn, -, heq⟩ := copies.leaving_forms g u <;>
    rw [heq] at h <;> simp only [FlowGraph.sets, FlowGraph.instr?, hn]
  · exact Or.inr ⟨h, by simp⟩
  · exact Or.inr ⟨(OrderedSet.mem_filter.1 h).1, by simp [Node.instr?_of_crosses hcrosses]⟩
  · obtain ⟨name, kind⟩ := n
    cases kind with
    | instr i => exact (mem_copyAt h).imp_left fun hmade => ⟨i, rfl, hmade⟩
    | invocation _ _ => exact absurd h (OrderedSet.not_mem_empty f)
    | _ => exact Or.inr ⟨h, by simp [Node.instr?]⟩

/-- **The source of a copy was set before the copy was made.** -/
theorem lastSet_source_lt {g : FlowGraph} {ns : List Nat} {f : Copy}
    (h : f ∈ copies.alongPath g ns) : lastSet g.sets f.source ns < lastSet g.sets f.target ns := by
  induction ns using List.reverseRecOn with
  | nil => exact absurd h (OrderedSet.not_mem_empty f)
  | append_singleton ns u ih =>
    rw [Analysis.alongPath_append] at h
    rw [lastSet_append, lastSet_append]
    rcases mem_leaving_copies h with ⟨i, hi, hmade, hne⟩ | ⟨hf, htarget, hsource⟩
    · have hsets : g.sets u = some f.target := by
        rw [FlowGraph.sets, hi, hmade]
        rfl
      have hother : g.sets u ≠ some f.source := by
        rw [hsets]
        exact fun h => hne (Option.some_inj.1 h).symm
      rw [if_pos hsets, if_neg hother]
      exact Nat.lt_succ_of_le lastSet_le
    · rw [if_neg htarget, if_neg hsource]
      exact ih hf

end Flow

/-! ### Trails -/

/-- Graphs of bodies with one outline have the same paths. -/
theorem path_congr {g g' : FlowGraph} {name name' : String} {body body' : List Instr}
    (hg : g.IsGraphOf name body) (hg' : g'.IsGraphOf name' body') (h : SameOutline body body')
    {ns : List Nat} {v : Nat} (hpath : g.Path ns v) : g'.Path ns v := by
  induction hpath with
  | start =>
    rw [hg.start_eq, ← hg'.start_eq]
    exact .start
  | step _ he ih =>
    refine ih.step ((hg'.mem_edges _ _).2 ?_)
    rw [← h.length_eq]
    exact ((hg.mem_edges _ _).1 he).imp_right fun ⟨k, k', hk, heq⟩ => ⟨k, k', h.continues hk, heq⟩

/-- For each position of a body a path to it, and the variable that each node sets. -/
structure Trail where
  sets : Nat → Option String
  path : Nat → List Nat

namespace Trail

/-- A trail leads to the positions of a body that control can reach. -/
structure Fits (t : Trail) (body : List Instr) : Prop where
  sets_eq : ∀ (g : FlowGraph) (name : String), g.IsGraphOf name body → g.sets = t.sets
  path : ∀ (g : FlowGraph) (name : String), g.IsGraphOf name body →
    ∀ k ns, g.Path ns (k + 2) → g.Path (t.path k) (k + 2)

/-- One trail leads through all bodies with one outline. -/
theorem exists_fits (body : List Instr) :
    ∃ t : Trail, ∀ body', SameOutline body body' → t.Fits body' := by
  have hchoice : ∀ k, ∃ ms, ∀ body', SameOutline body body' → ∀ (g : FlowGraph) (name : String),
      g.IsGraphOf name body' → ∀ ns, g.Path ns (k + 2) → g.Path ms (k + 2) := by
    intro k
    by_cases h : ∃ body', SameOutline body body' ∧
        ∃ (g : FlowGraph) (name : String) (ns : List Nat),
          g.IsGraphOf name body' ∧ g.Path ns (k + 2)
    · obtain ⟨body₁, hbody₁, g, name, ms, hg, hms⟩ := h
      exact ⟨ms, fun body' hbody g' name' hg' _ _ =>
        path_congr hg hg' (hbody₁.symm.trans hbody) hms⟩
    · exact ⟨[], fun body' hbody g name hg ns hns =>
        absurd ⟨body', hbody, g, name, ns, hg, hns⟩ h⟩
  choose path hpath using hchoice
  refine ⟨⟨fun | k + 2 => body[k]?.bind Instr.defined? | _ => none, path⟩,
    fun body' hbody => ⟨fun g name hg => funext fun u => ?_, fun g name hg k ns hns =>
      hpath k body' hbody g name hg ns hns⟩⟩
  rcases u with - | - | k
  · rw [FlowGraph.sets, FlowGraph.instr?, hg.node_start]
    rfl
  · rw [FlowGraph.sets, FlowGraph.instr?, ← Array.getElem?_toList, hg.nodes_eq]
    rfl
  · rw [FlowGraph.sets, hg.instr?_eq]
    have hdefined := congrArg (fun l => (l[k]?).bind Outline.defined) hbody
    simpa [Option.bind_map, Function.comp_def, Instr.outline] using hdefined.symm

/-- The reads of an instruction, each with the step at which its variable was last set. -/
def weight (t : Trail) (i : Instr) (k : Nat) : Nat :=
  (i.occurrences.map fun x => lastSet t.sets x (t.path k)).sum

/-- The number of computations of a body, then the weight of its reads. -/
def size (t : Trail) (body : List Instr) : ℕ ×ₗ ℕ :=
  toLex (Pass.weigh (fun i _ => if i.computes then 1 else 0) body, Pass.weigh t.weight body)

/-- Reading copies at sources that were set before them makes an instruction lighter. -/
theorem weight_forwardAt_lt {t : Trail} {k : Nat} {facts : OrderedSet Copy} {i j : Instr}
    (hfacts : ∀ f ∈ facts, lastSet t.sets f.source (t.path k) < lastSet t.sets f.target (t.path k))
    (h : Pass.forwardAt facts i = some j) : t.weight j k < t.weight i k := by
  have hchanged : i.substitute (Pass.sourceOf facts) ≠ i := by
    rintro hsame
    simp [Pass.forwardAt, hsame] at h
  rw [Pass.forwardAt_eq_some h]
  -- The substitution as a function on names.
  let source (x : String) : String := ((Pass.sourceOf facts x).bind Expr.asVariable?).getD x
  have hsource : ∀ x, (Pass.sourceOf facts x).getD (.var x) = .var (source x) ∧
      (source x = x ∨ (⟨x, source x⟩ : Copy) ∈ facts) := by
    intro x
    cases hx : Pass.sourceOf facts x with
    | none => simp [source, hx]
    | some e =>
      obtain ⟨y, rfl, hy⟩ := Pass.sourceOf_eq_some hx
      simp [source, hx, Expr.asVariable?, hy]
  have hlt : ∀ x, source x ≠ x →
      lastSet t.sets (source x) (t.path k) < lastSet t.sets x (t.path k) := fun x hx =>
    hfacts _ ((hsource x).2.resolve_left hx)
  have heq : i.substitute (Pass.sourceOf facts) = i.substitute (Expr.relabel source) :=
    Instr.substitute_congr fun x _ => (hsource x).1
  obtain ⟨x, hx, hne⟩ : ∃ x ∈ i.occurrences, source x ≠ x := by
    by_contra! hnone
    refine hchanged ?_
    calc
      i.substitute (Pass.sourceOf facts) = i.substitute (fun _ => none) :=
        Instr.substitute_congr fun x hx => by rw [(hsource x).1, hnone x hx, Option.getD_none]
      _ = i := i.substitute_none
  rw [heq, weight, Instr.occurrences_substitute, List.map_map, weight]
  refine List.sum_lt_sum _ _ (fun y _ => ?_) ⟨x, hx, hlt x hne⟩
  by_cases hy : source y = y
  · exact (congrArg (fun z => lastSet t.sets z (t.path k)) hy).le
  · exact (hlt y hy).le

end Trail

namespace Pass

variable {t : Trail} {f f' : Procedure} {cap count : Nat}

theorem computes_reuseAt {facts : OrderedSet Computation} {i j : Instr}
    (h : reuseAt facts i = some j) : i.computes = true ∧ j.computes = false := by
  unfold reuseAt at h
  split at h
  case h_1 x value =>
    split at h
    case isTrue hreusable =>
      obtain ⟨f, -, rfl⟩ := Option.map_eq_some_iff.1 h
      simp only [Bool.and_eq_true] at hreusable
      exact ⟨hreusable.1, rfl⟩
    case isFalse => cases h
  case h_2 => cases h

theorem isRenaming_sourceOf (facts : OrderedSet Copy) : Expr.IsRenaming (sourceOf facts) :=
  fun _ _ h => (sourceOf_eq_some h).imp fun _ hy => hy.1

/-- Reuse leaves fewer computations. -/
theorem size_reuse_lt (h : reuse.apply f cap = .ok (f', count)) (hcount : count ≠ 0) :
    t.size f'.body < t.size f.body := by
  obtain ⟨change, hchange, rfl, rfl⟩ := apply_eq_replaceAll h
  obtain ⟨g, -, s, -, hs⟩ := changes_eq_ok hchange
  refine Prod.Lex.left _ _ (weigh_replaceAll_lt (fun k i j hi hj => ?_) hcount)
  obtain ⟨hbefore, hafter⟩ := computes_reuseAt ((hs k i hi).symm.trans hj)
  rw [hbefore, hafter]
  exact Nat.zero_lt_one

/-- Forwarding leaves as many computations, and lighter reads. -/
theorem size_forward_lt (ht : t.Fits f.body) (h : forward.apply f cap = .ok (f', count))
    (hcount : count ≠ 0) : t.size f'.body < t.size f.body := by
  obtain ⟨change, hchange, rfl, rfl⟩ := apply_eq_replaceAll h
  obtain ⟨g, hg, s, hs, hchange⟩ := changes_eq_ok hchange
  have hgraph := FlowGraph.ofProcedure_isGraphOf hg
  have hexact := (Flow.solve_isExact hg cap).2.1 s hs
  rw [Trail.size, Trail.size, weigh_replaceAll_eq]
  · refine Prod.Lex.right _ (weigh_replaceAll_lt (fun k i j hi hj => ?_) hcount)
    refine Trail.weight_forwardAt_lt (fun c hc => ?_) ((hchange k i hi).symm.trans hj)
    -- A position with facts is reached, so that the trail leads to it and carries them.
    cases hx : s.input? (k + 2) with
    | none =>
      rw [Flow.Solution.factsAt, hx] at hc
      exact absurd hc (OrderedSet.not_mem_empty c)
    | some x =>
      rw [Flow.Solution.factsAt, hx, Option.getD_some] at hc
      obtain ⟨ns, hns⟩ := (hexact.reached (k + 2)).1 (by rw [Flow.Solution.isReached, hx]; rfl)
      have hpath := ht.path g f.name hgraph k ns hns
      rw [← ht.sets_eq g f.name hgraph]
      exact Flow.lastSet_source_lt ((hexact.facts (k + 2) x hx c).1 hc _ hpath)
  · intro k i j hi hj
    rw [forwardAt_eq_some ((hchange k i hi).symm.trans hj),
      Instr.computes_substitute (isRenaming_sourceOf _)]

/-- **Every change makes a body smaller.** -/
theorem size_apply_lt {p : Pass} (ht : t.Fits f.body) (h : p.apply f cap = .ok (f', count))
    (hcount : count ≠ 0) : t.size f'.body < t.size f.body := by
  cases p with
  | reuse => exact size_reuse_lt h hcount
  | forward => exact size_forward_lt ht h hcount

end Pass

end ParLoop
