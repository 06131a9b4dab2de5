import ParLoop.Proofs.Expr.Rename
import ParLoop.Proofs.FlowGraph.Steps

/-!
# Other names in a flow graph

The graph of a program with other names is the graph of the program with other names at its nodes
(`ofProgram_rename`), if the names that carry values across calls stay. Each procedure may get other
names in its own way.
-/

namespace ParLoop

theorem Expr.rename_rebuild (r : Renaming) (e : Expr) (es : List Expr) :
    (e.rebuild es).rename r = (e.rename r).rebuild (es.map (Expr.rename r)) := by
  cases e with
  | access a is => simp [rebuild, rename, renameList_eq]
  | call f as => simp [rebuild, rename, renameList_eq]
  | var x => rfl
  | int v => rfl
  | double v => rfl
  | neg e => rcases es with - | ⟨t, - | ⟨t', es⟩⟩ <;> rfl
  | paren e => rcases es with - | ⟨t, - | ⟨t', es⟩⟩ <;> rfl
  | binary op l t => rcases es with - | ⟨l', - | ⟨t', - | ⟨u, es⟩⟩⟩ <;> rfl
  | cond c t f => rcases es with - | ⟨c', - | ⟨t', - | ⟨f', - | ⟨u, es⟩⟩⟩⟩ <;> rfl

/-- What a node stands for, with other names. -/
def NodeKind.rename (r : Renaming) : NodeKind → NodeKind
  | .instr i => .instr (i.rename r)
  | .invocation f es => .invocation f (es.map (Expr.rename r))
  | kind => kind

/-- A node with the other names of its procedure. -/
def Node.rename (r : String → Renaming) (n : Node) : Node :=
  ⟨n.procedure, n.kind.rename (r n.procedure)⟩

namespace FlowGraph

/-- The graph with other names at its nodes. -/
def rename (r : String → Renaming) (g : FlowGraph) : FlowGraph :=
  { g with nodes := g.nodes.map (Node.rename r) }

variable (r : String → Renaming) (g : FlowGraph)

@[simp] theorem size_rename : (g.rename r).size = g.size := by simp [size, rename]

theorem getElem?_rename (n : Nat) : (g.rename r).nodes[n]? = g.nodes[n]?.map (Node.rename r) :=
  Array.getElem?_map ..

@[simp] theorem boundary?_rename (x : String) : (g.rename r).boundary? x = g.boundary? x := rfl

@[simp] theorem position?_rename (x : String) (k : Nat) :
    (g.rename r).position? x k = g.position? x k := rfl

theorem addNode_rename (x : String) (kind : NodeKind) :
    (g.rename r).addNode x (kind.rename (r x)) = (g.addNode x kind).rename r := by
  simp [addNode, rename, Node.rename]

theorem addEdge_rename (u v : Nat) : (g.rename r).addEdge u v = (g.addEdge u v).rename r := by
  unfold addEdge
  by_cases h : ⟨u, v⟩ ∈ g.edges
  · rw [if_pos h, if_pos (show ⟨u, v⟩ ∈ (g.rename r).edges from h)]
  · rw [if_neg h, if_neg (show ⟨u, v⟩ ∉ (g.rename r).edges from h)]
    rfl

theorem addProcedure_rename (x : String) :
    (g.rename r).addProcedure x = (g.addProcedure x).rename r := by
  have hsize := size_rename r g
  unfold addProcedure
  by_cases h : g.boundaries.contains x = true
  · rw [if_pos h, if_pos (show (g.rename r).boundaries.contains x = true from h)]
  · rw [if_neg h, if_neg (show ¬(g.rename r).boundaries.contains x = true from h), hsize]
    have hstart : (g.rename r).addNode x .start = (g.addNode x .start).rename r :=
      addNode_rename r g x .start
    have hstop : ((g.addNode x .start).rename r).addNode x .stop =
        ((g.addNode x .start).addNode x .stop).rename r := addNode_rename r _ x .stop
    rw [hstart, hstop]
    rfl

theorem mapPosition_rename (x : String) (k n : Nat) :
    (g.rename r).mapPosition x k n = (g.mapPosition x k n).rename r := by
  unfold mapPosition
  rw [position?_rename]
  cases g.position? x k <;> rfl

theorem placeInstr_rename (x : String) (k : Nat) (i : Instr) :
    (g.rename r).placeInstr x k (i.rename (r x)) = (g.placeInstr x k i).rename r := by
  unfold placeInstr
  rw [position?_rename]
  cases g.position? x k with
  | some n => rfl
  | none =>
    have hnode : (g.rename r).addNode x (.instr (i.rename (r x))) =
        (g.addNode x (.instr i)).rename r := addNode_rename r g x (.instr i)
    dsimp only
    rw [hnode, size_rename, mapPosition_rename]

theorem withCall_rename (caller callee : String) (node : Nat) (b : Boundary) :
    (g.rename r).withCall caller callee node b =
      (g.withCall caller callee node b).rename r := by
  have henter : (g.rename r).addNode caller (.enter caller callee) =
      (g.addNode caller (.enter caller callee)).rename r :=
    addNode_rename r g caller (.enter caller callee)
  have hleave : ((g.addNode caller (.enter caller callee)).rename r).addNode caller
      (.leave callee caller) = ((g.addNode caller (.enter caller callee)).addNode caller
        (.leave callee caller)).rename r := addNode_rename r _ caller (.leave callee caller)
  unfold withCall
  rw [henter, hleave, size_rename]
  simp only [addEdge_rename]

theorem linked_rename (cursor : Option Nat) (n : Nat) :
    Build.linked cursor n (g.rename r) = (Build.linked cursor n g).rename r := by
  cases cursor with
  | none => rfl
  | some last => exact addEdge_rename r g last n

theorem dangling_rename : (g.rename r).dangling = g.dangling := by
  unfold dangling
  have hnodes : (g.rename r).nodes.toList = g.nodes.toList.map (Node.rename r) := by simp [rename]
  rw [hnodes, List.zipIdx_map, List.filterMap_map]
  refine List.filterMap_congr fun ⟨n, k⟩ _ => ?_
  have hstop : (n.rename r).isStop = n.isStop := by
    obtain ⟨x, kind⟩ := n
    cases kind <;> rfl
  show (if (n.rename r).isStop || _ then _ else _) = _
  rw [hstop]
  rfl

theorem settle_rename : (g.rename r).settle = g.settle.rename r := by
  have hadd : ∀ (es : List Edge) (g : FlowGraph),
      es.foldl (fun g e => g.addEdge e.source e.target) (g.rename r) =
        (es.foldl (fun g e => g.addEdge e.source e.target) g).rename r := by
    intro es
    induction es with
    | nil => intro g; rfl
    | cons e es ih =>
      intro g
      rw [List.foldl_cons, List.foldl_cons, addEdge_rename, ih]
  unfold settle
  rw [dangling_rename, hadd]
  simp only [size_rename]
  rfl

end FlowGraph

/-! ### The construction -/

/-- The draft with other names at its nodes. -/
def Draft.rename (r : String → Renaming) (d : Draft) : Draft :=
  { d with graph := d.graph.rename r }

/-- A name that carries a value across calls. -/
def IsCallName (x : String) : Prop :=
  (∃ f k, x = argumentName f k) ∨ (∃ f, x = resultName f) ∨ ∃ f k, x = captureName f k

/-- A dollar sign stands in front of a name that carries a value across calls. -/
theorem IsCallName.head?_toList {x : String} (h : IsCallName x) : x.toList.head? = some '$' := by
  rcases h with ⟨f, k, rfl⟩ | ⟨f, rfl⟩ | ⟨f, k, rfl⟩ <;>
    simp [argumentName, argumentPrefix, resultName, captureName]

/-- The names that carry values across calls stay. -/
structure Renaming.KeepsCalls (r : Renaming) : Prop where
  argument : ∀ f k, r.var (argumentName f k) = argumentName f k
  result : ∀ f, r.var (resultName f) = resultName f
  capture : ∀ f k, r.var (captureName f k) = captureName f k

theorem Renaming.keepsCalls {r : Renaming} (h : ∀ x, IsCallName x → r.var x = x) :
    r.KeepsCalls where
  argument f k := h _ (Or.inl ⟨f, k, rfl⟩)
  result f := h _ (Or.inr (Or.inl ⟨f, rfl⟩))
  capture f k := h _ (Or.inr (Or.inr ⟨f, k, rfl⟩))

/-- The procedure with other names. -/
def Procedure.rename (r : Renaming) (f : Procedure) : Procedure :=
  ⟨f.name, f.parameters.map r.var, f.body.map (Instr.rename r)⟩

namespace Build

variable {r : String → Renaming} {root : String} {α β γ δ : Type}

theorem appended_rename (d : Draft) (x : String) (kind : NodeKind) :
    (d.rename r).appended x (kind.rename (r x)) = (d.appended x kind).rename r := by
  simp only [Draft.appended, Draft.rename, FlowGraph.size_rename, FlowGraph.addNode_rename,
    FlowGraph.linked_rename]

theorem joined_rename (d : Draft) (caller callee : String) (node : Nat) :
    (d.rename r).joined caller callee node = (d.joined caller callee node).rename r := by
  simp only [Draft.joined, Draft.rename, FlowGraph.addProcedure_rename, FlowGraph.boundary?_rename,
    FlowGraph.size_rename, FlowGraph.withCall_rename]

/-- A part of the construction with other names does what it does without, and no procedure is left
out that was entered. -/
def Commutes (r : String → Renaming) (root : String) (f : α → β) (m : Build α) (m' : Build β) :
    Prop :=
  ∀ d, root ∈ d.entered →
    m' (d.rename r) = (m d).map (fun q => (f q.1, q.2.rename r)) ∧
      ∀ q, m d = .ok q → root ∈ q.2.entered

theorem commutes_of_ok {f : α → β} {m : Build α} {m' : Build β} (value : Draft → α)
    (next : Draft → Draft) (hm : ∀ d, m d = .ok (value d, next d))
    (hm' : ∀ d, m' (d.rename r) = .ok (f (value d), (next d).rename r))
    (hentered : ∀ d, (next d).entered = d.entered) : Commutes r root f m m' := by
  intro d hd
  rw [hm, hm']
  refine ⟨rfl, fun q hq => ?_⟩
  cases hq
  rw [hentered]
  exact hd

theorem Commutes.bind {f : α → β} {g : γ → δ} {m : Build α} {m' : Build β} {k : α → Build γ}
    {k' : β → Build δ} (hm : Commutes r root f m m')
    (hk : ∀ a, Commutes r root g (k a) (k' (f a))) : Commutes r root g (m >>= k) (m' >>= k') := by
  intro d hd
  obtain ⟨heq, hnext⟩ := hm d hd
  rw [bind_eq, bind_eq, heq]
  cases h : m d with
  | error e => exact ⟨rfl, nofun⟩
  | ok q => exact hk q.1 q.2 (hnext q h)

theorem commutes_pure {f : α → β} {a : α} {b : β} (h : b = f a) :
    Commutes r root f (pure a) (pure b) :=
  commutes_of_ok (fun _ => a) id (fun _ => rfl) (fun _ => by rw [h]; rfl) fun _ => rfl

theorem commutes_throw {f : α → β} (e : AnalysisError) :
    Commutes r root f (throw e) (throw e) := fun _ _ => ⟨rfl, nofun⟩

theorem commutes_emit (x : String) (kind : NodeKind) :
    Commutes r root id (emit x kind) (emit x (kind.rename (r x))) :=
  commutes_of_ok _ _ (emit_eq x kind)
    (fun d => by rw [emit_eq, appended_rename, Draft.rename, FlowGraph.size_rename]; rfl)
    fun _ => rfl

theorem commutes_emitInstr (x : String) (i : Instr) :
    Commutes r root id (emitInstr x i) (emitInstr x (i.rename (r x))) :=
  (commutes_emit x (.instr i)).bind fun _ => commutes_pure rfl

theorem commutes_forM {f : α → β} {step : α → Build Unit} {step' : β → Build Unit} {l : List α}
    (h : ∀ a ∈ l, Commutes r root id (step a) (step' (f a))) :
    Commutes r root id (l.forM step) ((l.map f).forM step') := by
  induction l with
  | nil => exact commutes_pure rfl
  | cons a l ih => exact (h a (by simp)).bind fun _ => ih fun b hb => h b (by simp [hb])

theorem commutes_bindArguments (hr : ∀ x, (r x).KeepsCalls) (caller callee : String)
    (es : List Expr) : Commutes r root (List.map (Expr.rename (r caller)))
      (bindArguments caller callee es)
      (bindArguments caller callee (es.map (Expr.rename (r caller)))) := by
  have hone : ∀ e k, Commutes r root (Expr.rename (r caller)) (bindArgument caller callee e k)
      (bindArgument caller callee (e.rename (r caller)) k) := by
    intro e k
    have hname := (hr caller).argument callee k
    have hdeclare : Commutes r root id _ _ := commutes_emitInstr caller
      (.declare (argumentName callee k))
    have hassign : Commutes r root id _ _ := commutes_emitInstr caller
      (.assign (.var (argumentName callee k)) e)
    simp only [Instr.rename, Expr.rename, hname] at hdeclare hassign
    exact hdeclare.bind fun _ => hassign.bind fun _ => commutes_pure (by rw [Expr.rename, hname])
  have hall : ∀ (es : List Expr) (n : Nat), Commutes r root (List.map (Expr.rename (r caller)))
      ((es.zipIdx n).mapM fun q => bindArgument caller callee q.1 q.2)
      (((es.map (Expr.rename (r caller))).zipIdx n).mapM fun q =>
        bindArgument caller callee q.1 q.2) := by
    intro es
    induction es with
    | nil => intro n; exact commutes_pure rfl
    | cons e es ih =>
      intro n
      rw [List.map_cons, List.zipIdx_cons, List.zipIdx_cons, List.mapM_cons, List.mapM_cons]
      exact (hone e n).bind fun _ => (ih (n + 1)).bind fun _ => commutes_pure rfl
  exact hall es 0

/-- Two linkings build the same bodies, except for their names. -/
structure Linking.Renames (r : String → Renaming) (root : String) (linking linking' : Linking) :
    Prop where
  find : ∀ x, linking'.procedures.contains x = linking.procedures.contains x
  enter : ∀ x f f', linking.procedures.find? x = some f → linking'.procedures.find? x = some f' →
    x ≠ root → Commutes r root id (linking.enter x f) (linking'.enter x f')

variable {linking linking' : Linking}

theorem commutes_reach (h : linking.Renames r root linking') {callee : String}
    {target target' : Procedure} (htarget : linking.procedures.find? callee = some target)
    (htarget' : linking'.procedures.find? callee = some target') :
    Commutes r root id (reach linking callee target) (reach linking' callee target') := by
  intro d hd
  have hentered : (d.rename r).entered = d.entered := rfl
  unfold reach
  rw [hentered]
  by_cases hin : callee ∈ d.entered
  · rw [if_pos (OrderedSet.contains_iff.2 hin), if_pos (OrderedSet.contains_iff.2 hin)]
    refine ⟨rfl, fun q hq => ?_⟩
    cases hq
    exact hd
  · rw [if_neg fun hc => hin (OrderedSet.contains_iff.1 hc),
      if_neg fun hc => hin (OrderedSet.contains_iff.1 hc)]
    have hne : callee ≠ root := fun heq => hin (heq ▸ hd)
    exact h.enter callee target target' htarget htarget' hne
      { d with entered := d.entered.insert callee } (OrderedSet.mem_insert.2 (Or.inr hd))

theorem commutes_call (hr : ∀ x, (r x).KeepsCalls) (h : linking.Renames r root linking')
    (caller callee : String) (es : List Expr) :
    Commutes r root id (call linking caller callee es)
      (call linking' caller callee (es.map (Expr.rename (r caller)))) := by
  rw [call_eq, call_eq]
  have hfind := h.find callee
  simp only [NameMap.contains] at hfind
  cases htarget : linking.procedures.find? callee with
  | none =>
    cases htarget' : linking'.procedures.find? callee with
    | none => exact commutes_throw _
    | some target' => simp [htarget, htarget'] at hfind
  | some target =>
    cases htarget' : linking'.procedures.find? callee with
    | none => simp [htarget, htarget'] at hfind
    | some target' =>
      refine (commutes_bindArguments hr caller callee es).bind fun bound =>
        (commutes_emit caller (.invocation callee bound)).bind fun node =>
          (commutes_reach h htarget htarget').bind fun _ => ?_
      exact commutes_of_ok _ _ (fun d => rfl) (fun d => by rw [id, join, joined_rename])
        fun _ => rfl

theorem commutes_callValue (hr : ∀ x, (r x).KeepsCalls) (h : linking.Renames r root linking')
    (caller callee : String) (es : List Expr) :
    Commutes r root (Expr.rename (r caller)) (callValue linking caller callee es)
      (callValue linking' caller callee (es.map (Expr.rename (r caller)))) := by
  rw [callValue_eq, callValue_eq]
  refine (commutes_call hr h caller callee es).bind fun _ => ?_
  have hcapture : ∀ d : Draft, (d.rename r).withCapture caller callee =
      (d.withCapture caller callee).rename r := by
    intro d
    have hnext : ∀ (d : Draft) (i i' : Instr), i' = i.rename (r caller) →
        (d.rename r).appended caller (.instr i') = (d.appended caller (.instr i)).rename r := by
      rintro d i _ rfl
      exact appended_rename d caller (.instr i)
    have hname := (hr caller).capture callee (d.captured callee)
    have hresult := (hr caller).result callee
    simp only [Draft.withCapture]
    rw [← hnext _ _ _ (by rw [Instr.rename, Expr.rename, Expr.rename, hname, hresult]),
      ← hnext _ _ _ (by rw [Instr.rename, hname])]
    rfl
  refine commutes_of_ok (fun d => .var (captureName callee (d.captured callee)))
    (fun d => d.withCapture caller callee) (fun _ => rfl) (fun d => ?_) fun d => ?_
  · show Except.ok (_, (d.rename r).withCapture caller callee) = _
    rw [hcapture, Expr.rename, (hr caller).capture]
    rfl
  · rfl

theorem commutes_hoistList {caller : String} {es : List Expr}
    (h : ∀ e ∈ es, Commutes r root (Expr.rename (r caller)) (hoist linking caller e)
      (hoist linking' caller (e.rename (r caller)))) :
    Commutes r root (List.map (Expr.rename (r caller))) (hoistList linking caller es)
      (hoistList linking' caller (es.map (Expr.rename (r caller)))) := by
  induction es with
  | nil => exact commutes_pure rfl
  | cons e es ih =>
    exact (h e (by simp)).bind fun _ => (ih fun t ht => h t (by simp [ht])).bind fun _ =>
      commutes_pure rfl

theorem commutes_hoist (hr : ∀ x, (r x).KeepsCalls) (h : linking.Renames r root linking')
    (caller : String) (e : Expr) :
    Commutes r root (Expr.rename (r caller)) (hoist linking caller e)
      (hoist linking' caller (e.rename (r caller))) := by
  induction e using Expr.induct_children with
  | h e ih =>
    have hlist := commutes_hoistList ih
    cases hcall : e.calledProcedure? with
    | none =>
      rw [hoist_eq linking caller hcall, hoist_eq linking' caller
        ((Expr.calledProcedure?_rename _ e).trans hcall), Expr.children_rename]
      exact hlist.bind fun es => commutes_pure (Expr.rename_rebuild _ e es).symm
    | some f =>
      obtain ⟨es, rfl⟩ : ∃ es, e = .call f es := by
        cases e <;> simp_all [Expr.calledProcedure?]
      rw [Expr.rename, Expr.renameList_eq]
      exact hlist.bind fun es => commutes_callValue hr h caller f es

theorem commutes_hoistInstr (hr : ∀ x, (r x).KeepsCalls) (h : linking.Renames r root linking')
    (x : String) (index : Nat) (i : Instr) :
    Commutes r root (Option.map (Instr.rename (r x))) (hoistInstr linking x index i)
      (hoistInstr linking' x index (i.rename (r x))) := by
  have hvalue := commutes_hoist hr h x
  cases i with
  | assign target value =>
    cases target with
    | access a is =>
      have htarget := hvalue (.access a is)
      rw [Expr.rename] at htarget
      rw [Instr.rename, Expr.rename]
      exact htarget.bind fun _ => (hvalue value).bind fun _ => commutes_pure rfl
    | _ => exact (hvalue value).bind fun _ => commutes_pure rfl
  | declare y => exact commutes_pure rfl
  | label l => exact commutes_pure rfl
  | jump l => exact commutes_pure rfl
  | branch c l => exact (hvalue c).bind fun _ => commutes_pure rfl
  | call f es =>
    refine (commutes_hoistList fun e _ => hvalue e).bind fun es =>
      (commutes_call hr h x f es).bind fun node => ?_
    refine Commutes.bind (f := id) ?_ fun _ => commutes_pure rfl
    exact commutes_of_ok (fun _ => ()) (fun d => d.mapped x index node) (fun _ => rfl)
      (fun d => by
        show Except.ok ((), (d.rename r).mapped x index node) = _
        rw [Draft.mapped, Draft.rename, FlowGraph.mapPosition_rename]
        rfl) fun _ => rfl

theorem commutes_finish (x : String) (marks : Landmarks) (i : Instr) (index : Nat)
    (left : Option Instr) :
    Commutes r root id (finish x marks i index left)
      (finish x marks (i.rename (r x)) index (left.map (Instr.rename (r x)))) := by
  have hrepeated : marks.repeated? (i.rename (r x)) = marks.repeated? i := by cases i <;> rfl
  have hadd : ∀ n, marks.add n (i.rename (r x)) = marks.add n i := fun n => by cases i <;> rfl
  have hfalls : (i.rename (r x)).fallsThrough = i.fallsThrough := by cases i <;> rfl
  cases left with
  | none => exact commutes_pure rfl
  | some left =>
    simp only [finish, Option.map_some, hrepeated, hadd, hfalls]
    cases marks.repeated? i with
    | some l => exact commutes_throw _
    | none =>
      refine commutes_of_ok _ _ (fun d => rfl) (fun d => ?_) fun _ => rfl
      simp only [drawn, Draft.rename, FlowGraph.size_rename, FlowGraph.placeInstr_rename,
        FlowGraph.linked_rename, id]

/-- The linkings of two bodies, if there are any, build the same bodies except for their names. -/
def Joins (r : String → Renaming) (root : String) : Option Linking → Option Linking → Prop
  | none, none => True
  | some linking, some linking' => (∀ x, (r x).KeepsCalls) ∧ linking.Renames r root linking'
  | _, _ => False

variable {joining joining' : Option Linking}

theorem commutes_addInstr (h : Joins r root joining joining') (x : String) (marks : Landmarks)
    (i : Instr) (index : Nat) :
    Commutes r root id (addInstr joining x marks (i, index))
      (addInstr joining' x marks (i.rename (r x), index)) := by
  match joining, joining', h with
  | some linking, some linking', ⟨hr, h⟩ =>
    rw [addInstr_some_eq, addInstr_some_eq]
    exact (commutes_hoistInstr hr h x index i).bind fun left => commutes_finish x marks i index left
  | none, none, _ =>
    have hnone : ∀ i, addInstr none x marks (i, index) = finish x marks i index (some i) :=
      fun i => funext fun d => addInstr_eq x marks i index d
    rw [hnone, hnone]
    exact commutes_finish x marks i index (some i)

theorem commutes_foldlM (h : Joins r root joining joining') (x : String) (body : List Instr)
    (index : Nat) (marks : Landmarks) :
    Commutes r root id ((body.zipIdx index).foldlM (addInstr joining x) marks)
      (((body.map (Instr.rename (r x))).zipIdx index).foldlM (addInstr joining' x) marks) := by
  induction body generalizing index marks with
  | nil => exact commutes_pure rfl
  | cons i body ih =>
    rw [List.map_cons, List.zipIdx_cons, List.zipIdx_cons, List.foldlM_cons, List.foldlM_cons]
    exact (commutes_addInstr h x marks i index).bind fun marks' => ih (index + 1) marks'

theorem commutes_addJump (x : String) (marks : Landmarks) (node : Nat) (l : String) :
    Commutes r root id (addJump x marks node l) (addJump x marks node l) := by
  unfold addJump
  cases marks.labels.lookup l with
  | none => exact commutes_throw _
  | some target =>
    refine commutes_of_ok (fun _ => ()) _ (fun _ => rfl) (fun d => ?_) fun _ => rfl
    show Except.ok ((), { d.rename r with graph := (d.graph.rename r).addEdge node target }) = _
    rw [FlowGraph.addEdge_rename]
    rfl

/-- **A body with other names is built as the body is.** -/
theorem commutes_addBody (h : Joins r root joining joining') (x : String)
    (entry body : List Instr) :
    Commutes r root id (addBody joining x entry body)
      (addBody joining' x (entry.map (Instr.rename (r x))) (body.map (Instr.rename (r x)))) := by
  have hboundary : Commutes r root id (boundary x) (boundary x) :=
    commutes_of_ok _ _ (boundary_eq x) (fun d => by
      simp only [boundary_eq, Draft.rename, FlowGraph.addProcedure_rename, id,
        FlowGraph.boundary?_rename]) fun _ => rfl
  have hmove : ∀ c, Commutes r root id (moveTo c) (moveTo c) := fun c =>
    commutes_of_ok (fun _ => ()) _ (fun _ => rfl) (fun _ => rfl) fun _ => rfl
  have hconnect : ∀ n, Commutes r root id (connect n) (connect n) := fun n =>
    commutes_of_ok _ _ (connect_eq n) (fun d => by
      simp only [connect_eq, Draft.rename, FlowGraph.linked_rename, id]) fun _ => rfl
  refine hboundary.bind fun b => (hmove _).bind fun _ =>
    (commutes_forM fun i _ => commutes_emitInstr x i).bind fun _ =>
      (commutes_foldlM h x body 0 {}).bind fun marks => (hconnect _).bind fun _ => ?_
  have hjumps : Commutes r root id (marks.jumps.forM fun q => addJump x marks q.1 q.2)
      ((marks.jumps.map id).forM fun q => addJump x marks q.1 q.2) :=
    commutes_forM fun q _ => commutes_addJump x marks q.1 q.2
  rw [List.map_id] at hjumps
  exact hjumps

theorem entryOf_rename {r : Renaming} (hr : r.KeepsCalls) (f : Procedure) :
    entryOf (f.rename r) = (entryOf f).map (Instr.rename r) := by
  rw [entryOf, entryOf, List.map_cons, List.map_flatMap, Instr.rename, hr.result, Procedure.rename,
    List.zipIdx_map, List.flatMap_map]
  refine congrArg _ (List.flatMap_congr fun q _ => ?_)
  simp [Instr.rename, Expr.rename, hr.argument]

/-- The procedures of a program with other names. -/
structure RenamesAll (r : String → Renaming) (root : String)
    (procedures procedures' : NameMap Procedure) : Prop where
  contains_eq : ∀ x, procedures'.contains x = procedures.contains x
  find : ∀ x f, x ≠ root → procedures.find? x = some f →
    procedures'.find? x = some (f.rename (r x))

/-- The bodies of the procedures with other names are built as the bodies are. -/
theorem renames_linkingTo (hr : ∀ x, (r x).KeepsCalls) {procedures procedures' : NameMap Procedure}
    (h : RenamesAll r root procedures procedures') (depth : Nat) :
    (linkingTo procedures depth).Renames r root (linkingTo procedures' depth) := by
  induction depth with
  | zero => exact ⟨h.contains_eq, fun _ _ _ _ _ _ => commutes_pure rfl⟩
  | succ depth ih =>
    refine ⟨h.contains_eq, fun x f f' hf hf' hne => ?_⟩
    cases hf'.symm.trans (h.find x f hne hf)
    have hjoins : Joins r root (some (linkingTo procedures depth))
        (some (linkingTo procedures' depth)) := ⟨hr, ih⟩
    have hbody := commutes_addBody hjoins x (entryOf f) f.body
    rw [← entryOf_rename (hr x)] at hbody
    exact hbody

theorem complete_rename {f : Procedure} (h : Joins r f.name joining joining') :
    complete joining' (f.rename (r f.name)) =
      (complete joining f).map fun q => (q.1.rename r, q.2) := by
  have hroot : (FlowGraph.ofRoot f.name).rename r = FlowGraph.ofRoot f.name := by
    simp [ofRoot_eq, FlowGraph.rename, Node.rename, NodeKind.rename]
  obtain ⟨heq, -⟩ := commutes_addBody h f.name [] f.body
    { graph := .ofRoot f.name, calls := { root := f.name }, entered := .ofList [f.name] } (by simp)
  rw [Draft.rename, hroot] at heq
  unfold complete
  simp only [StateT.run]
  show ((addBody joining' f.name [] (f.body.map _)) _ >>= _) = _
  rw [List.map_nil] at heq
  rw [show (f.rename (r f.name)).name = f.name from rfl, heq]
  cases addBody joining f.name [] f.body
    { graph := .ofRoot f.name, calls := { root := f.name }, entered := .ofList [f.name] } with
  | error e => rfl
  | ok q =>
    show Except.ok ((q.2.rename r).graph.settle, q.2.calls) = _
    rw [Draft.rename, FlowGraph.settle_rename]
    rfl

end Build

namespace FlowGraph

/-- **The graph of a program with other names is its graph with other names.** -/
theorem ofProgram_rename {r : String → Renaming} {p p' : Program} (interprocedural : Bool)
    (hr : interprocedural = true → ∀ x, (r x).KeepsCalls)
    (hprocedures : Build.RenamesAll r loopName p.procedures p'.procedures)
    (hsize : p'.procedures.size = p.procedures.size)
    (hbody : p'.body = p.body.map (Instr.rename (r loopName))) :
    ofProgram p' interprocedural =
      (ofProgram p interprocedural).map fun q => (q.1.rename r, q.2) := by
  have hroot : p'.root = p.root.rename (r p.root.name) := by
    rw [Program.root, hbody]
    rfl
  unfold ofProgram
  rw [hroot]
  refine Build.complete_rename ?_
  cases interprocedural with
  | false => trivial
  | true =>
    rw [if_pos rfl, if_pos rfl, hsize]
    exact ⟨hr rfl, Build.renames_linkingTo (hr rfl) hprocedures _⟩

theorem ofProcedure_rename (r : Renaming) (f : Procedure) :
    ofProcedure (f.rename r) = (ofProcedure f).map (rename fun _ => r) := by
  have hjoins : Build.Joins (fun _ => r) f.name none none := trivial
  unfold ofProcedure
  rw [Build.complete_rename hjoins]
  cases Build.complete none f <;> rfl

end FlowGraph

end ParLoop
