import Mathlib.Algebra.BigOperators.Group.List.Basic
import Mathlib.Algebra.Order.Group.Nat
import ParLoop.Proofs.FlowGraph.Body

/-!
# The steps of the construction as changes of the draft

Every step of the construction of a flow graph that cannot fail is a function on drafts. A call goes
in three of them: the call site is appended, the callee is built unless that was done before
(`Build.reach`), and the two are joined (`Draft.joined`). What is left of an instruction after its
calls were taken out goes to its position (`Build.finish`).
-/

namespace ParLoop

/-- The expression with other direct parts, as many as it has. -/
def Expr.rebuild : Expr → List Expr → Expr
  | .access a _, es => .access a es
  | .neg _, [e] => .neg e
  | .binary op _ _, [l, r] => .binary op l r
  | .paren _, [e] => .paren e
  | .cond _ _ _, [c, t, f] => .cond c t f
  | .call f _, es => .call f es
  | e, _ => e

theorem Expr.children_rebuild {e : Expr} {es : List Expr} (h : es.length = e.children.length) :
    (e.rebuild es).children = es := by
  cases e with
  | access a is => rfl
  | call f as => rfl
  | var x => exact (List.eq_nil_of_length_eq_zero h).symm
  | int v => exact (List.eq_nil_of_length_eq_zero h).symm
  | double v => exact (List.eq_nil_of_length_eq_zero h).symm
  | neg e =>
    obtain ⟨e', rfl⟩ := List.length_eq_one_iff.1 h
    rfl
  | paren e =>
    obtain ⟨e', rfl⟩ := List.length_eq_one_iff.1 h
    rfl
  | binary op l r =>
    obtain ⟨l', r', rfl⟩ := List.length_eq_two.1 h
    rfl
  | cond c t f =>
    obtain ⟨c', t', f', rfl⟩ := List.length_eq_three.1 h
    rfl

theorem Expr.calledProcedure?_rebuild (e : Expr) (es : List Expr) :
    (e.rebuild es).calledProcedure? = e.calledProcedure? := by
  unfold rebuild
  split <;> rfl

/-! ### Graphs -/

/-- The edges that join a call site to the boundary of its callee. -/
def CallSite.edges (s : CallSite) (b : Boundary) : List Edge :=
  [⟨s.node, s.enter⟩, ⟨s.enter, b.start⟩, ⟨b.stop, s.leave⟩, ⟨s.leave, s.node⟩]

/-- The graph in which a call site is joined to the boundary of its callee by two new nodes. -/
def FlowGraph.withCall (g : FlowGraph) (caller callee : String) (node : Nat) (b : Boundary) :
    FlowGraph :=
  (((((g.addNode caller (.enter caller callee)).addNode caller
    (.leave callee caller)).addEdge node g.size).addEdge g.size b.start).addEdge b.stop
    (g.size + 1)).addEdge (g.size + 1) node

namespace FlowGraph

section WithCall

variable (g : FlowGraph) (caller callee : String) (node : Nat) (b : Boundary)

theorem getElem?_withCall (n : Nat) : (g.withCall caller callee node b).nodes[n]? =
    if n = g.size + 1 then some ⟨caller, .leave callee caller⟩
    else if n = g.size then some ⟨caller, .enter caller callee⟩ else g.nodes[n]? := by
  simp only [withCall, nodes_addEdge, getElem?_addNode, size_addNode]

theorem extends_withCall : g.Extends (g.withCall caller callee node b) := by
  intro n v hv
  have hn := lt_size_of_getElem? hv
  rw [getElem?_withCall, if_neg (by omega), if_neg (by omega), hv]

theorem mem_edges_withCall (e : Edge) : e ∈ (g.withCall caller callee node b).edges ↔
    e ∈ g.edges ∨ e ∈ CallSite.edges ⟨caller, callee, node, g.size, g.size + 1⟩ b := by
  simp [withCall, CallSite.edges, or_assoc, addNode]

@[simp] theorem size_withCall : (g.withCall caller callee node b).size = g.size + 2 := by
  simp [withCall]

theorem withCall_frame : (g.withCall caller callee node b).root = g.root ∧
    (g.withCall caller callee node b).boundaries = g.boundaries ∧
    (g.withCall caller callee node b).positions = g.positions := by
  simp [withCall, addNode]

end WithCall

end FlowGraph

/-! ### Drafts -/

namespace Draft

/-- The draft with one more node, to which control goes on from the cursor. -/
def appended (d : Draft) (procedure : String) (kind : NodeKind) : Draft :=
  { d with
    graph := Build.linked d.cursor d.graph.size (d.graph.addNode procedure kind)
    cursor := some d.graph.size }

/-- The draft in which a call site is joined to its callee. -/
def joined (d : Draft) (caller callee : String) (node : Nat) : Draft :=
  let g := d.graph.addProcedure callee
  let b := (g.boundary? callee).getD ⟨0, 0⟩
  { d with
    graph := g.withCall caller callee node b
    calls := d.calls.add ⟨caller, callee, node, g.size, g.size + 1⟩
    cursor := some node }

/-- How many results of a procedure were kept. -/
def captured (d : Draft) (callee : String) : Nat := (d.captures.find? callee).getD 0

/-- The draft in which the result of a call is kept. -/
def withCapture (d : Draft) (caller callee : String) : Draft :=
  let x := captureName callee (d.captured callee)
  ({ d with captures := d.captures.insert callee (d.captured callee + 1) }.appended caller
    (.instr (.declare x))).appended caller (.instr (.assign (.var x) (.var (resultName callee))))

/-- The draft in which a node stands at a position of a body. -/
def mapped (d : Draft) (procedure : String) (index node : Nat) : Draft :=
  { d with graph := d.graph.mapPosition procedure index node }

end Draft

namespace Build

theorem emit_eq (procedure : String) (kind : NodeKind) (d : Draft) :
    emit procedure kind d = .ok (d.graph.size, d.appended procedure kind) := by
  obtain ⟨g, calls, entered, captures, cursor⟩ := d
  cases cursor <;> rfl

theorem emitInstr_eq (procedure : String) (i : Instr) (d : Draft) :
    emitInstr procedure i d = .ok ((), d.appended procedure (.instr i)) := by
  rw [emitInstr, bind_eq, emit_eq]
  rfl

theorem boundary_eq (procedure : String) (d : Draft) : boundary procedure d =
    .ok (((d.graph.addProcedure procedure).boundary? procedure).getD ⟨0, 0⟩,
      { d with graph := d.graph.addProcedure procedure }) := rfl

theorem bindArgument_eq (caller callee : String) (e : Expr) (k : Nat) (d : Draft) :
    bindArgument caller callee e k d = .ok (.var (argumentName callee k),
      (d.appended caller (.instr (.declare (argumentName callee k)))).appended caller
        (.instr (.assign (.var (argumentName callee k)) e))) := by
  rw [bindArgument, bind_eq, emitInstr_eq]
  show (emitInstr caller _ >>= fun _ => _) (d.appended caller _) = _
  rw [bind_eq, emitInstr_eq]
  rfl

/-- Builds the body of a callee unless it was begun before. -/
def reach (linking : Linking) (callee : String) (target : Procedure) : Build Unit := fun d =>
  if d.entered.contains callee then .ok ((), d)
  else linking.enter callee target { d with entered := d.entered.insert callee }

/-- Stores the arguments of a call in their variables. -/
def bindArguments (caller callee : String) (arguments : List Expr) : Build (List Expr) :=
  arguments.zipIdx.mapM fun (e, k) => bindArgument caller callee e k

/-- Joins a call site to its callee, and answers the node of the call. -/
def join (caller callee : String) (node : Nat) : Build Nat := fun d =>
  .ok (node, d.joined caller callee node)

theorem modify_eq (f : Draft → Draft) (d : Draft) :
    (modify f : Build Unit) d = .ok ((), f d) := rfl

theorem get_eq (d : Draft) : (get : Build Draft) d = .ok (d, d) := rfl

theorem pure_eq {α : Type} (a : α) (d : Draft) : (pure a : Build α) d = .ok (a, d) := rfl

/-- A call appends a call site, reaches the callee and is joined to it. -/
theorem call_eq (linking : Linking) (caller callee : String) (arguments : List Expr) :
    call linking caller callee arguments =
      match linking.procedures.find? callee with
      | none => throw (.unknownProcedure callee)
      | some target => bindArguments caller callee arguments >>= fun bound =>
        emit caller (.invocation callee bound) >>= fun node =>
          reach linking callee target >>= fun _ => join caller callee node := by
  unfold call
  cases linking.procedures.find? callee with
  | none => rfl
  | some target =>
    refine bind_congr fun bound => bind_congr fun node => funext fun d => ?_
    rw [bind_eq, get_eq, bind_eq, reach]
    dsimp only [Except.bind]
    split
    · simp only [bind_eq, boundary_eq, get_eq, grow, moveTo, modify_eq, pure_eq, Except.bind, join]
      rfl
    · rw [bind_eq, modify_eq]
      dsimp only [Except.bind]
      rw [bind_eq]
      cases linking.enter callee target { d with entered := d.entered.insert callee } with
      | error e => rfl
      | ok r =>
        simp only [bind_eq, boundary_eq, get_eq, grow, moveTo, modify_eq, pure_eq, Except.bind, join]
        rfl

theorem callValue_eq (linking : Linking) (caller callee : String) (arguments : List Expr) :
    callValue linking caller callee arguments = do
      let _ ← call linking caller callee arguments
      let d ← get
      set (d.withCapture caller callee)
      return .var (captureName callee (d.captured callee)) := by
  refine bind_congr fun node => funext fun d => ?_
  show (emitInstr caller _ >>= fun _ => _) { d with captures := _ } = _
  rw [bind_eq, emitInstr_eq]
  show (emitInstr caller _ >>= fun _ => _) (Draft.appended _ _ _) = _
  rw [bind_eq, emitInstr_eq]
  rfl

/-- Calls are taken out of an expression that is no call by taking them out of its parts. -/
theorem hoist_eq (linking : Linking) (caller : String) {e : Expr} (h : e.calledProcedure? = none) :
    hoist linking caller e =
      hoistList linking caller e.children >>= fun es => pure (e.rebuild es) := by
  cases e with
  | call f es => cases h
  | _ => simp [hoist, hoistList, Expr.children, Expr.rebuild]

/-- Puts what is left of an instruction to its position. -/
def finish (name : String) (marks : Landmarks) (i : Instr) (index : Nat) :
    Option Instr → Build Landmarks
  | none => pure marks
  | some left => fun d =>
    match marks.repeated? i with
    | some l => .error (.duplicateLabel l name)
    | none => .ok (marks.add d.graph.size i,
        { drawn name index left d with
          cursor := if i.fallsThrough then some d.graph.size else none })

theorem addInstr_some_eq (linking : Linking) (name : String) (marks : Landmarks) (i : Instr)
    (index : Nat) : addInstr (some linking) name marks (i, index) =
      hoistInstr linking name index i >>= finish name marks i index := by
  refine bind_congr fun left => ?_
  cases left with
  | none => rfl
  | some left =>
    funext d
    obtain ⟨g, calls, entered, captures, cursor⟩ := d
    cases i with
    | label l =>
      by_cases h : (marks.labels.lookup l).isSome = true
      · cases cursor <;> simp only [finish, Landmarks.repeated?, if_pos h] <;> rfl
      · cases cursor <;> simp only [finish, Landmarks.repeated?, if_neg h] <;> rfl
    | _ => cases cursor <;> rfl

end Build

-- From here on the graph is known by the lemmas above.
attribute [irreducible] FlowGraph.withCall

end ParLoop
