import ParLoop.Proofs.Flow.Stable
import ParLoop.Proofs.FlowGraph.Body

/-!
# Flow problems over a body

For the graph of a body, the stability of a solution is a statement about the positions of the body:
what is known at a position absorbs what leaves the positions before it. In a body without jumps
control passes every position once, and the facts are those that are carried along
(`solve_straight`).
-/

namespace ParLoop.Flow

variable {F : Type} [Ord F] {a : Analysis F} {g : FlowGraph} {name : String} {body : List Instr}

/-- A forward problem carries its facts along the edges. -/
theorem mem_flowsFrom_forward (hg : g.IsGraphOf name body) (ha : a.direction = .forward)
    {u v : Nat} : ⟨u, v⟩ ∈ a.direction.flowsFrom g u ↔ ⟨u, v⟩ ∈ g.edges := by
  rw [ha, ← hg.coherent.mem_successors]
  simp [Direction.flowsFrom]

/-- An instruction lets through what the transfer function says. -/
theorem leaving_instr (hg : g.IsGraphOf name body) {k : Nat} {i : Instr} (hi : body[k]? = some i)
    (x : OrderedSet F) : a.leaving g (k + 2) x = a.transfer g (k + 2) ⟨name, .instr i⟩ x :=
  a.leaving_of_not_crosses x (by rw [hg.node_instr, hi, Option.map_some]) rfl

/-- So do the start and the stop. -/
theorem leaving_start (hg : g.IsGraphOf name body) (x : OrderedSet F) :
    a.leaving g 0 x = a.transfer g 0 ⟨name, .start⟩ x :=
  a.leaving_of_not_crosses x hg.node_start rfl

theorem leaving_stop (hg : g.IsGraphOf name body) (x : OrderedSet F) :
    a.leaving g 1 x = a.transfer g 1 ⟨name, .stop⟩ x :=
  a.leaving_of_not_crosses x hg.node_stop rfl

/-- Every node of a body lets through what the transfer function says. -/
theorem leaving_eq_transfer (hg : g.IsGraphOf name body) (u : Nat) (x : OrderedSet F) :
    a.leaving g u x = g.nodes[u]?.elim x fun n => a.transfer g u n x := by
  cases hn : g.nodes[u]? with
  | none => exact a.leaving_of_none x hn
  | some n => exact a.leaving_of_not_crosses x hn (hg.crosses_eq_false hn)

variable [DecidableEq F] {cap : Nat} {r : Solution F}

/-- The facts at the first position absorb what leaves the start. -/
theorem solve_entry (hg : g.IsGraphOf name body) (ha : a.direction = .forward) (hj : a.IsJoin g)
    (h : a.solve g cap = .ok r) :
    ∃ x y, r.input? 0 = some x ∧ a.Absorbs x (a.extremal g) ∧
      r.input? (nodeOf body.length 0) = some y ∧ a.Absorbs y (a.leaving g 0 x) := by
  obtain ⟨⟨x, hx, hext⟩, hflow⟩ := Analysis.solve_stable hj hg.coherent h
  have hx0 : r.input? 0 = some x := by
    rw [ha, Direction.origin, hg.start_eq] at hx
    exact hx
  have he : (⟨0, nodeOf body.length 0⟩ : Edge) ∈ a.direction.flowsFrom g 0 :=
    (mem_flowsFrom_forward hg ha).2 ((hg.mem_edges _ _).2 (Or.inl ⟨rfl, rfl⟩))
  obtain ⟨y, hy, hxy⟩ := hflow ⟨0, nodeOf body.length 0⟩ he x hx0
  exact ⟨x, y, hx0, hext, hy, hxy⟩

/-- The facts at a position absorb what leaves a position before it. -/
theorem solve_step (hg : g.IsGraphOf name body) (ha : a.direction = .forward) (hj : a.IsJoin g)
    (h : a.solve g cap = .ok r) {k k' : Nat} (hk : Continues body k k') {x : OrderedSet F}
    (hx : r.input? (k + 2) = some x) :
    ∃ y, r.input? (nodeOf body.length k') = some y ∧ a.Absorbs y (a.leaving g (k + 2) x) := by
  have he : (⟨k + 2, nodeOf body.length k'⟩ : Edge) ∈ a.direction.flowsFrom g (k + 2) :=
    (mem_flowsFrom_forward hg ha).2 ((hg.mem_edges _ _).2 (Or.inr ⟨k, k', hk, rfl, rfl⟩))
  exact (Analysis.solve_stable hj hg.coherent h).2 ⟨k + 2, nodeOf body.length k'⟩ he x hx

/-! ### Bodies without jumps -/

/-- Control passes the instructions of a body one after the other. -/
def Straight (body : List Instr) : Prop :=
  ∀ i ∈ body, i.fallsThrough = true ∧ i.jumpTarget? = none

theorem Straight.continues_iff (hbody : Straight body) {k k' : Nat} :
    Continues body k k' ↔ k < body.length ∧ k' = k + 1 := by
  constructor
  · rintro ⟨i, hi, ⟨-, rfl⟩ | ⟨l, hl, -⟩⟩
    · exact ⟨(List.getElem?_eq_some_iff.1 hi).1, rfl⟩
    · rw [(hbody i (List.mem_of_getElem? hi)).2] at hl
      cases hl
  · rintro ⟨hk, rfl⟩
    exact ⟨body[k], List.getElem?_eq_getElem hk, Or.inl ⟨(hbody _ (List.getElem_mem hk)).1, rfl⟩⟩

/-- The facts that are carried along the first instructions of a body. -/
def Analysis.along (a : Analysis F) (g : FlowGraph) : Nat → OrderedSet F
  | 0 => a.leaving g 0 (a.extremal g)
  | k + 1 => a.leaving g (k + 2) (a.along g k)

omit [DecidableEq F] in
theorem along_self (hj : a.IsJoin g) (k : Nat) : a.Absorbs (a.along g k) (a.along g k) := by
  induction k with
  | zero => exact hj.leaving_self _ _ hj.extremal_self
  | succ k ih => exact hj.leaving_self _ _ ih

theorem nodeOf_injective {n k k' : Nat} (hk : k ≤ n) (hk' : k' ≤ n) (h : nodeOf n k = nodeOf n k') :
    k = k' := by
  unfold nodeOf at h
  split at h <;> split at h <;> omega

/-- The facts at a position of a body without jumps can only be those that are carried along. -/
theorem eq_along (hg : g.IsGraphOf name body) (ha : a.direction = .forward) (hj : a.IsJoin g)
    (hbody : Straight body) (h : a.solve g cap = .ok r) {k : Nat} (hk : k ≤ body.length)
    {x : OrderedSet F} (hx : r.input? (nodeOf body.length k) = some x) : x = a.along g k := by
  have hpos : ∀ k, nodeOf body.length k ≠ 0 := by
    intro k
    unfold nodeOf
    split <;> omega
  refine (Analysis.solve_induct (P := fun v x => (v = 0 → x = a.extremal g) ∧
    ∀ k ≤ body.length, v = nodeOf body.length k → x = a.along g k) hg.coherent ?_ ?_ ?_ h hx).2
      k hk rfl
  · refine ⟨fun _ => rfl, fun k _ hv => ?_⟩
    rw [ha, Direction.origin, hg.start_eq] at hv
    exact absurd hv.symm (hpos k)
  · rintro ⟨u, v⟩ he x ⟨hzero, halong⟩
    rcases (hg.mem_edges u v).1 ((mem_flowsFrom_forward hg ha).1 he) with ⟨rfl, rfl⟩ |
      ⟨j, k, hjk, rfl, rfl⟩
    · refine ⟨fun hv => absurd hv (hpos 0), fun k hk hv => ?_⟩
      cases nodeOf_injective (Nat.zero_le _) hk hv
      rw [hzero rfl]
      rfl
    · obtain ⟨hj, rfl⟩ := hbody.continues_iff.1 hjk
      refine ⟨fun hv => absurd hv (hpos _), fun k hk hv => ?_⟩
      cases nodeOf_injective (by omega) hk hv
      rw [halong j (by omega) (nodeOf_of_lt hj).symm]
      rfl
  · rintro v x y ⟨hx, hx'⟩ ⟨hy, hy'⟩
    refine ⟨fun hv => ?_, fun k hk hv => ?_⟩
    · rw [hx hv, hy hv]
      exact hj.extremal_self
    · rw [hx' k hk hv, hy' k hk hv]
      exact along_self hj k

/-- **The facts at the positions of a body without jumps** are those that are carried along. -/
theorem solve_straight (hg : g.IsGraphOf name body) (ha : a.direction = .forward) (hj : a.IsJoin g)
    (hbody : Straight body) (h : a.solve g cap = .ok r) {k : Nat} (hk : k ≤ body.length) :
    r.input? (nodeOf body.length k) = some (a.along g k) := by
  have hreached : ∃ x, r.input? (nodeOf body.length k) = some x := by
    induction k with
    | zero =>
      obtain ⟨-, y, -, -, hy, -⟩ := solve_entry hg ha hj h
      exact ⟨y, hy⟩
    | succ k ih =>
      obtain ⟨x, hx⟩ := ih (by omega)
      rw [nodeOf_of_lt (by omega)] at hx
      obtain ⟨y, hy, -⟩ := solve_step hg ha hj h (hbody.continues_iff.2 ⟨by omega, rfl⟩) hx
      exact ⟨y, hy⟩
  obtain ⟨x, hx⟩ := hreached
  rw [hx, eq_along hg ha hj hbody h hk hx]

/-- `solve_straight` at a position that holds an instruction. -/
theorem factsAt_straight (hg : g.IsGraphOf name body) (ha : a.direction = .forward)
    (hj : a.IsJoin g) (hbody : Straight body) (h : a.solve g cap = .ok r) {k : Nat}
    (hk : k < body.length) : r.factsAt (k + 2) = a.along g k := by
  have := solve_straight hg ha hj hbody h (Nat.le_of_lt hk)
  rw [nodeOf_of_lt hk] at this
  rw [Solution.factsAt, this, Option.getD_some]

end ParLoop.Flow
