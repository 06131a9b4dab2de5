import ParLoop.Proofs.FlowGraph.Simulate

/-!
# Instructions inserted into a loop body

The graph of a loop body with a declaration and an assignment inserted before every instruction that
accesses an array by a name is the graph of the body with pairs of inserted nodes
(`FlowGraph.ofProgram_insertPairs`): the two constructions are simulated step by step, over calls
(`simulates_call`, `simulates_hoist`), instructions (`simulates_addInstr`) and bodies
(`simulates_addBody`).
-/

namespace ParLoop

namespace Build

/-! ### Calls -/

variable {ι : Insertion} {α β : Type} {q q₁ : Pair} {here : List String} {guarded : Bool}

variable {linking : Linking}

/-- No position from an index on is taken. -/
def Pair.Frees (x : String) (k' k : Nat) (q : Pair) : Prop :=
  (∀ j, k' ≤ j → q.long.graph.position? x j = none) ∧
    ∀ j, k ≤ j → q.short.graph.position? x j = none

theorem Pair.Frees.later {x : String} {k' k : Nat} (h : q.Frees x k' k) (hx : x ∈ q.short.entered)
    (hlater : q.Later [] q₁) : q₁.Frees x k' k :=
  ⟨fun j hj => ((hlater.position x hx (by simp) j).1).trans (h.1 j hj),
    fun j hj => ((hlater.position x hx (by simp) j).2).trans (h.2 j hj)⟩

theorem Pair.Frees.mapped {x : String} {k' k : Nat} (h : q.Frees x k' k) (n' n : Nat) :
    Frees x (k' + 1) (k + 1) ⟨q.tags, q.long.mapped x k' n', q.short.mapped x k n⟩ := by
  have hne : ∀ {i j : Nat}, i + 1 ≤ j → (x, j) ≠ (x, i) := fun hij heq => by
    cases heq
    exact absurd hij (Nat.not_succ_le_self _)
  exact ⟨fun j hj => (position?_mapped _ n' (hne hj)).trans (h.1 j (Nat.le_of_succ_le hj)),
    fun j hj => (position?_mapped _ n (hne hj)).trans (h.2 j (Nat.le_of_succ_le hj))⟩

/-- The labels and jumps of both bodies stand at corresponding nodes. -/
structure Pair.Marked (marks' marks : Landmarks) (q : Pair) : Prop where
  labels : List.Forall₂ (fun l' l => l'.1 = l.1 ∧ q.tags[l'.2]? = some (Tag.copy l.2 false))
    marks'.labels marks.labels
  jumps : List.Forall₂ (fun j' j => j'.2 = j.2 ∧ ∃ c, q.tags[j'.1]? = some (Tag.copy j.1 c))
    marks'.jumps marks.jumps

theorem Pair.Marked.later {marks' marks : Landmarks} (h : q.Marked marks' marks)
    (hlater : q.Later here q₁) : q₁.Marked marks' marks :=
  ⟨h.labels.imp fun _ _ hl => ⟨hl.1, hlater.tag hl.2⟩,
    h.jumps.imp fun _ _ hj => ⟨hj.1, hj.2.imp fun _ hc => hlater.tag hc⟩⟩

theorem Pair.Marked.lookup {marks' marks : Landmarks} (h : q.Marked marks' marks) (l : String) :
    (marks.labels.lookup l = none ∧ marks'.labels.lookup l = none) ∨
      ∃ n' n, marks.labels.lookup l = some n ∧ marks'.labels.lookup l = some n' ∧
        q.tags[n']? = some (Tag.copy n false) := by
  have hlabels := h.labels
  generalize marks'.labels = ls', marks.labels = ls at hlabels ⊢
  induction hlabels with
  | nil => exact Or.inl ⟨rfl, rfl⟩
  | @cons l' l₁ ls' ls hone _ ih =>
    obtain ⟨hname, htag⟩ := hone
    rw [List.lookup_cons, List.lookup_cons, hname]
    cases l == l₁.1 with
    | true => exact Or.inr ⟨l'.2, l₁.2, rfl, rfl, htag⟩
    | false => exact ih

/-- The landmarks of an instruction that stands at corresponding nodes. -/
theorem Pair.Marked.add {marks' marks : Landmarks} (h : q.Marked marks' marks) {n' n : Nat}
    (htag : q.tags[n']? = some (Tag.copy n guarded)) {i : Instr}
    (hlabel : ∀ l, i = .label l → guarded = false) :
    q.Marked (marks'.add n' i) (marks.add n i) := by
  have hjump : ∀ l : String, List.Forall₂
      (fun j' j => j'.2 = j.2 ∧ ∃ c, q.tags[j'.1]? = some (Tag.copy j.1 c))
      (marks'.jumps ++ [(n', l)]) (marks.jumps ++ [(n, l)]) := fun l =>
    List.rel_append h.jumps (.cons ⟨rfl, _, htag⟩ .nil)
  cases i with
  | label l =>
    rw [hlabel l rfl] at htag
    exact ⟨List.rel_append h.labels (.cons ⟨rfl, htag⟩ .nil), h.jumps⟩
  | jump l => exact ⟨h.labels, hjump l⟩
  | branch c l => exact ⟨h.labels, hjump l⟩
  | _ => exact h

variable {joining : Option Linking}

/-- Control goes on between corresponding nodes. -/
theorem Pair.Ok.withEdge (hq : q.Ok ι) (hclosed : q.Closed) {n' n m' m : Nat} {c : Bool}
    (hsource : q.tags[n']? = some (Tag.copy n c))
    (htarget : q.tags[m']? = some (Tag.copy m false)) :
    let q₁ : Pair := ⟨q.tags, { q.long with graph := q.long.graph.addEdge n' m' },
      { q.short with graph := q.short.graph.addEdge n m }⟩
    q.Later here q₁ ∧ q₁.Ok ι ∧ q₁.Closed := by
  intro q₁
  obtain ⟨v, hv, -⟩ := hq.mirrors.copied _ _ _ hsource
  have hposition : ∀ (g : FlowGraph) (a b : Nat) (y : String) (k : Nat),
      (g.addEdge a b).position? y k = g.position? y k := fun g a b y k =>
    congrArg (List.lookup (y, k)) (FlowGraph.positions_addEdge g a b)
  have hmirrors := hq.mirrors.addEdge hsource htarget hv nofun
  have hsealed : q₁.Closed := fun n o s hn =>
    (hclosed n o s hn).imp fun b hb => FlowGraph.mem_edges_addEdge.2 (Or.inl hb)
  refine ⟨⟨List.prefix_rfl, fun j w hw => ?_, fun _ hy => hy, fun y _ _ k =>
    ⟨hposition _ _ _ y k, hposition _ _ _ y k⟩⟩, ⟨hmirrors, hq.entered_eq, hq.captures_eq,
      fun n o s hn => Or.inr (hsealed n o s hn), fun y hy k => ?_⟩, hsealed⟩
  · dsimp only [q₁]
    rw [FlowGraph.nodes_addEdge]
    exact hw
  · dsimp only [q₁]
    rw [hposition, hposition]
    exact hq.position y hy k

/-- A body is begun. -/
def Pair.entering (x : String) (q : Pair) : Pair :=
  ⟨q.tags, { q.long with entered := q.long.entered.insert x },
    { q.short with entered := q.short.entered.insert x }⟩

theorem Pair.Ok.entering (h : q.Ok ι) (x : String) :
    q.Later [] (q.entering x) ∧ (q.entering x).Ok ι := by
  refine ⟨⟨List.prefix_rfl, .refl _, fun y hy => ?_, fun _ _ _ _ => ⟨rfl, rfl⟩⟩,
    ⟨h.mirrors, ?_, h.captures_eq, h.goesOn, fun y hy k => h.position y (fun hin => hy ?_) k⟩⟩
  · exact OrderedSet.mem_insert.2 (Or.inr hy)
  · exact congrArg (OrderedSet.insert · x) h.entered_eq
  · exact OrderedSet.mem_insert.2 (Or.inr hin)

end Build

namespace FlowGraph

/-- A settled graph with inserted pairs. -/
structure Inserted (ι : Insertion) (ts : List Tag) (g' g : FlowGraph) : Prop
    extends Tagged ι ts g' g where
  start : ts[g'.start]? = some (Tag.copy g.start false)
  root : g'.root = g.root

end FlowGraph

end ParLoop
