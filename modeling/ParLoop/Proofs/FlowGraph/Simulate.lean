import ParLoop.Proofs.FlowGraph.Mirror

/-!
# Two constructions side by side

The graphs of a program and of the same program with inserted pairs are built by the same steps.
`Pair` holds the two drafts, `Pair.Ok` says that the longer one mirrors the shorter one, and
`Simulates P m' m Q` that two constructions which both succeed lead from drafts with `P` to drafts
with `Q`. The constructions compose (`Simulates.bind`, `Simulates.frame`). The steps on drafts are
appending a node (`Pair.Ok.appended`), inserting a pair (`Pair.Ok.withPair`), giving nodes their
positions (`Pair.Ok.mapped`) and joining a call site to its callee (`Pair.Ok.joined`).
-/

namespace ParLoop.Build

/-- Two drafts, with the tags of the nodes of the longer one. -/
structure Pair where
  tags : List Tag
  long : Draft
  short : Draft

/-- The longer draft mirrors the shorter one. -/
structure Pair.Ok (ι : Insertion) (q : Pair) : Prop where
  mirrors : FlowGraph.Mirrors ι q.tags q.long.graph q.short.graph
  entered_eq : q.long.entered = q.short.entered
  captures_eq : q.long.captures = q.short.captures
  /-- Control goes on from an inserted node, or is there. -/
  goesOn : ∀ (n' : Nat) (o : Option Nat) (s : Bool), q.tags[n']? = some (Tag.fresh o s) →
    q.long.cursor = some n' ∨ ∃ b, ⟨n', b⟩ ∈ q.long.graph.edges
  position : ∀ x, x ∉ q.short.entered → ∀ k,
    q.long.graph.position? x k = none ∧ q.short.graph.position? x k = none

/-- Control is at corresponding nodes, or at an inserted pair and the node before it. What follows
may be guarded in the latter case. -/
def Pair.Aims (ι : Insertion) (guarded : Bool) (q : Pair) : Prop :=
  (∃ (a' a : Nat) (c : Bool) (v : Node), q.long.cursor = some a' ∧ q.short.cursor = some a ∧
    q.tags[a']? = some (Tag.copy a c) ∧ q.long.graph.nodes[a']? = some v ∧
    (guarded = true → ι.joined = true ∧ c = true ∧ v.Passes)) ∨
  (guarded = false ∧ q.long.cursor = none ∧ q.short.cursor = none) ∨
  guarded = true ∧ ∃ a' : Nat, q.long.cursor = some a' ∧
    q.tags[a']? = some (Tag.fresh q.short.cursor true)

/-- What was there stays. Of the bodies that were begun, only the positions of some change. -/
structure Pair.Later (here : List String) (q q₁ : Pair) : Prop where
  tags : q.tags <+: q₁.tags
  nodes : q.long.graph.Extends q₁.long.graph
  entered : ∀ x ∈ q.short.entered, x ∈ q₁.short.entered
  position : ∀ x ∈ q.short.entered, x ∉ here → ∀ k,
    q₁.long.graph.position? x k = q.long.graph.position? x k ∧
      q₁.short.graph.position? x k = q.short.graph.position? x k

/-- Where both constructions succeed, the drafts they leave mirror each other. -/
def Simulates {α β : Type} (ι : Insertion) (here : List String)
    (P : Pair → Prop) (m' : Build α) (m : Build β) (Q : α → β → Pair → Prop) : Prop :=
  ∀ q, q.Ok ι → P q → ∀ a' e' a e, m' q.long = .ok (a', e') → m q.short = .ok (a, e) →
    ∃ ts, q.Later here ⟨ts, e', e⟩ ∧ Pair.Ok ι ⟨ts, e', e⟩ ∧ Q a' a ⟨ts, e', e⟩

variable {ι : Insertion} {α β γ δ : Type} {q q₁ q₂ : Pair} {here : List String}

theorem Pair.Later.trans (h : q.Later here q₁) (h₁ : q₁.Later here q₂) : q.Later here q₂ where
  tags := h.tags.trans h₁.tags
  nodes := h.nodes.trans h₁.nodes
  entered x hx := h₁.entered x (h.entered x hx)
  position x hx hhere k := by
    obtain ⟨hlong, hshort⟩ := h.position x hx hhere k
    obtain ⟨hlong₁, hshort₁⟩ := h₁.position x (h.entered x hx) hhere k
    exact ⟨hlong₁.trans hlong, hshort₁.trans hshort⟩

theorem Pair.Later.tag {n : Nat} {t : Tag} (h : q.Later here q₁) (hn : q.tags[n]? = some t) :
    q₁.tags[n]? = some t := by
  obtain ⟨new, hnew⟩ := h.tags
  rw [← hnew]
  exact Tag.getElem?_append hn new

namespace Simulates

variable {P : Pair → Prop} {m' : Build α} {m : Build β} {Q : α → β → Pair → Prop}

theorem bind {f' : α → Build γ} {f : β → Build δ} {Q₁ : γ → δ → Pair → Prop}
    (hm : Simulates ι here P m' m Q)
    (hf : ∀ a' a, Simulates ι here (Q a' a) (f' a') (f a) Q₁) :
    Simulates ι here P (m' >>= f') (m >>= f) Q₁ := by
  intro q hq hP c' e' c e h' h
  obtain ⟨a', d', hd', h'⟩ := Outcome.stateT_bind_eq_ok h'
  obtain ⟨a, d, hd, h⟩ := Outcome.stateT_bind_eq_ok h
  obtain ⟨ts, hlater, hok, hQ⟩ := hm q hq hP a' d' a d hd' hd
  obtain ⟨ts₁, hlater₁, hrest⟩ := hf a' a _ hok hQ c' e' c e h' h
  exact ⟨ts₁, hlater.trans hlater₁, hrest⟩

theorem imp {P₁ : Pair → Prop} {Q₁ : α → β → Pair → Prop} (hm : Simulates ι here P m' m Q)
    (hP : ∀ q, q.Ok ι → P₁ q → P q)
    (hQ : ∀ a' a q, q.Ok ι → Q a' a q → Q₁ a' a q) :
    Simulates ι here P₁ m' m Q₁ := by
  intro q hq hP₁ a' e' a e h' h
  obtain ⟨ts, hlater, hok, hpost⟩ := hm q hq (hP q hq hP₁) a' e' a e h' h
  exact ⟨ts, hlater, hok, hQ _ _ _ hok hpost⟩

/-- A precondition on the values so far. -/
theorem assume_and {φ : Prop} (hm : φ → Simulates ι here P m' m Q) :
    Simulates ι here (fun q => φ ∧ P q) m' m Q :=
  fun q hq hP => hm hP.1 q hq hP.2

/-- What later drafts keep also holds afterwards. -/
theorem frame {F : Pair → Prop} (hm : Simulates ι here P m' m Q)
    (hF : ∀ q q₁ : Pair, q.Later here q₁ → F q → F q₁) :
    Simulates ι here (fun q => P q ∧ F q) m' m fun a' a q => Q a' a q ∧ F q := by
  intro q hq hP a' e' a e h' h
  obtain ⟨ts, hlater, hok, hpost⟩ := hm q hq hP.1 a' e' a e h' h
  exact ⟨ts, hlater, hok, hpost, hF q _ hlater hP.2⟩

end Simulates

namespace Pair

/-- Control is at corresponding nodes. -/
structure At (guarded : Bool) (n' n : Nat) (v : Node) (q : Pair) : Prop where
  tag : q.tags[n']? = some (Tag.copy n guarded)
  node : q.long.graph.nodes[n']? = some v
  long : q.long.cursor = some n'
  short : q.short.cursor = some n

/-- Control goes on from every inserted node. -/
def Closed (q : Pair) : Prop :=
  ∀ (n' : Nat) (o : Option Nat) (s : Bool), q.tags[n']? = some (Tag.fresh o s) →
    ∃ b, ⟨n', b⟩ ∈ q.long.graph.edges

variable {guarded : Bool} {n' n : Nat} {v : Node}

theorem At.closed (h : q.At guarded n' n v) (hq : q.Ok ι) : q.Closed := by
  intro m' o s hm
  refine (hq.goesOn m' o s hm).resolve_left fun hcursor => ?_
  cases h.long.symm.trans hcursor
  cases h.tag.symm.trans hm

theorem Aims.closed (h : q.Aims ι false) (hq : q.Ok ι) : q.Closed := by
  intro m' o s hm
  refine (hq.goesOn m' o s hm).resolve_left fun hcursor => ?_
  rcases h with ⟨a', a, c, v, ha', -, htag, -⟩ | ⟨-, hnone, -⟩ | ⟨hfalse, -⟩
  · cases ha'.symm.trans hcursor
    cases htag.symm.trans hm
  · cases hnone.symm.trans hcursor
  · cases hfalse

/-- Control may go on from anywhere. -/
theorem Ok.withCursor (h : q.Ok ι) (hc : q.Closed) (c' c : Option Nat) :
    Ok ι ⟨q.tags, { q.long with cursor := c' }, { q.short with cursor := c }⟩ :=
  ⟨h.mirrors, h.entered_eq, h.captures_eq, fun n' o s hn => Or.inr (hc n' o s hn), h.position⟩

theorem position?_appended (d : Draft) (x : String) (kind : NodeKind) (y : String) (k : Nat) :
    (d.appended x kind).graph.position? y k = d.graph.position? y k := by
  rw [FlowGraph.position?, Draft.appended, (linked_frame ..).2.2.2]
  rfl

/-- The same node is appended to both drafts. -/
theorem Ok.appended (h : q.Ok ι) (haims : q.Aims ι guarded) (x : String) (kind : NodeKind)
    (hguard : Node.Accesses ι.name ⟨x, kind⟩ → guarded = true) :
    q.Later here ⟨q.tags ++ [.copy q.short.graph.size guarded], q.long.appended x kind,
        q.short.appended x kind⟩ ∧
      Ok ι ⟨q.tags ++ [.copy q.short.graph.size guarded], q.long.appended x kind,
        q.short.appended x kind⟩ ∧
      At guarded q.long.graph.size q.short.graph.size ⟨x, kind⟩
        ⟨q.tags ++ [.copy q.short.graph.size guarded], q.long.appended x kind,
          q.short.appended x kind⟩ := by
  have hnodes := h.mirrors.addNode x kind hguard
  have htag : (q.tags ++ [.copy q.short.graph.size guarded])[q.long.graph.size]? =
      some (.copy q.short.graph.size guarded) := by
    rw [← h.mirrors.length_eq]
    simp
  have hpositions := fun d => position?_appended d x kind
  have hmirrors : FlowGraph.Mirrors ι (q.tags ++ [.copy q.short.graph.size guarded])
      (q.long.appended x kind).graph (q.short.appended x kind).graph := by
    rw [Draft.appended, Draft.appended]
    rcases haims with ⟨a', a, c, v, ha', ha, ht, hv, hpass⟩ | ⟨-, ha', ha⟩ | ⟨hg, a', ha', ht⟩
    · rw [ha', ha]
      refine hnodes.addEdge (Tag.getElem?_append ht _) htag
        (FlowGraph.extends_addNode _ _ _ _ _ hv) fun hg => ⟨(hpass hg).1, Or.inl (hpass hg).2⟩
    · rw [ha', ha]
      exact hnodes
    · rw [ha']
      rw [hg] at htag hnodes ⊢
      exact hnodes.addEdge_fresh (Tag.getElem?_append ht _) htag
  refine ⟨⟨List.prefix_append .., (q.long.quiet_appended x kind).nodes, fun _ hx => hx,
    fun y _ _ k => ⟨hpositions _ y k, hpositions _ y k⟩⟩,
    ⟨hmirrors, h.entered_eq, h.captures_eq, fun m o s hm => ?_, fun y hy k => ?_⟩,
    ⟨htag, ?_, rfl, rfl⟩⟩
  · rcases getElem?_append_singleton.1 hm with hm | ⟨-, ht⟩
    · refine Or.inr ?_
      rcases h.goesOn m o s hm with hcursor | ⟨b, hb⟩
      · exact ⟨q.long.graph.size, mem_edges_linked.2 (Or.inr ⟨hcursor, rfl⟩)⟩
      · exact ⟨b, mem_edges_linked.2 (Or.inl hb)⟩
    · cases ht
  · dsimp only
    rw [hpositions, hpositions]
    exact h.position y hy k
  · exact Draft.getElem?_appended ..

theorem position?_mapped (d : Draft) {x y : String} {j l : Nat} (node : Nat)
    (hne : (y, l) ≠ (x, j)) :
    (d.mapped x j node).graph.position? y l = d.graph.position? y l := by
  rw [Draft.mapped, FlowGraph.mapPosition]
  cases d.graph.position? x j with
  | some n => rfl
  | none =>
    rw [FlowGraph.position?, List.lookup_append]
    simp [List.lookup_cons, beq_false_of_ne hne, FlowGraph.position?]

/-- Nodes take positions of a body that was begun. -/
theorem Ok.mapped (h : q.Ok ι) {x : String} (hx : x ∈ q.short.entered) {long short : Draft}
    (hlong : long = q.long ∨ ∃ k node, long = q.long.mapped x k node)
    (hshort : short = q.short ∨ ∃ k node, short = q.short.mapped x k node) :
    q.Later [x] ⟨q.tags, long, short⟩ ∧ Ok ι ⟨q.tags, long, short⟩ := by
  have hframe : ∀ d e : Draft, (e = d ∨ ∃ k node, e = d.mapped x k node) →
      e = { d with graph := { d.graph with positions := e.graph.positions } } ∧
        ∀ y, y ≠ x → ∀ l, e.graph.position? y l = d.graph.position? y l := by
    rintro d e (rfl | ⟨k, node, rfl⟩)
    · exact ⟨rfl, fun _ _ _ => rfl⟩
    · refine ⟨?_, fun y hy l => position?_mapped d node fun heq => hy (congrArg Prod.fst heq)⟩
      rw [Draft.mapped, FlowGraph.mapPosition]
      cases d.graph.position? x k <;> rfl
  obtain ⟨heq', hother'⟩ := hframe _ _ hlong
  obtain ⟨heq, hother⟩ := hframe _ _ hshort
  generalize long.graph.positions = ps' at heq'
  generalize short.graph.positions = ps at heq
  subst heq' heq
  exact ⟨⟨List.prefix_rfl, .refl _, fun _ hy => hy, fun y _ hy l =>
      ⟨hother' y (by simpa using hy) l, hother y (by simpa using hy) l⟩⟩,
    ⟨{ h.mirrors with }, h.entered_eq, h.captures_eq, h.goesOn, fun y hy l => by
      have hne : y ≠ x := fun heq => hy (heq ▸ hx)
      exact ⟨(hother' y hne l).trans (h.position y hy l).1,
        (hother y hne l).trans (h.position y hy l).2⟩⟩⟩

theorem mem_edges_addProcedure (g : FlowGraph) (x : String) {e : Edge} :
    e ∈ (g.addProcedure x).edges ↔ e ∈ g.edges := by
  rcases g.addProcedure_cases x with ⟨b, -, h⟩ | ⟨-, h⟩ <;> rw [h]
  rfl

/-- Only nodes of the shorter graph were added to both. -/
theorem fresh_of_append {ts new : List Tag} (hnew : ∀ t ∈ new, ∃ n, t = Tag.copy n false)
    {m : Nat} {o : Option Nat} {s : Bool} (h : (ts ++ new)[m]? = some (.fresh o s)) :
    ts[m]? = some (.fresh o s) := by
  rcases Nat.lt_or_ge m ts.length with hlt | hge
  · rwa [List.getElem?_append_left hlt] at h
  · rw [List.getElem?_append_right hge] at h
    obtain ⟨n, hn⟩ := hnew _ (List.mem_of_getElem? h)
    cases hn

/-- A call site is joined to its callee in both drafts. -/
theorem Ok.joined (h : q.Ok ι) (hjoined : ι.joined = true) (hc : q.Closed)
    (caller callee : String) {v : Node}
    (hnode : q.tags[n']? = some (.copy n guarded)) (hv : q.long.graph.nodes[n']? = some v) :
    ∃ ts, q.Later here ⟨ts, q.long.joined caller callee n', q.short.joined caller callee n⟩ ∧
      Ok ι ⟨ts, q.long.joined caller callee n', q.short.joined caller callee n⟩ ∧
      At guarded n' n v ⟨ts, q.long.joined caller callee n', q.short.joined caller callee n⟩ := by
  obtain ⟨new, hnew, hmirrors⟩ := h.mirrors.addProcedure callee
  have hposition : ∀ (d : Draft) (node : Nat) (y : String) (k : Nat),
      (d.joined caller callee node).graph.position? y k = d.graph.position? y k := fun d node y k =>
    congrArg (List.lookup (y, k)) (d.positions_joined caller callee node)
  obtain ⟨b, hb⟩ : ∃ b, (q.short.graph.addProcedure callee).boundary? callee = some b := by
    rw [FlowGraph.boundary?_addProcedure, if_pos rfl]
    exact ⟨_, rfl⟩
  obtain ⟨b', hb', hstart, hstop⟩ := (hmirrors.boundary callee).2 b hb
  have hcall := hmirrors.withCall hjoined caller callee
    (Tag.getElem?_append hnode new) hstart hstop
  have hcopies : ∀ t ∈ new ++ [.copy (q.short.graph.addProcedure callee).size false] ++
      [.copy ((q.short.graph.addProcedure callee).size + 1) false], ∃ n, t = Tag.copy n false := by
    intro t ht
    simp only [List.mem_append, List.mem_singleton] at ht
    rcases ht with (ht | ht) | ht
    · exact hnew t ht
    · exact ⟨_, ht⟩
    · exact ⟨_, ht⟩
  rw [List.append_assoc, List.append_assoc, ← List.append_assoc new] at hcall
  generalize new ++ [.copy (q.short.graph.addProcedure callee).size false] ++
      [.copy ((q.short.graph.addProcedure callee).size + 1) false] = more at hcall hcopies
  have hok : Ok ι ⟨q.tags ++ more, q.long.joined caller callee n',
      q.short.joined caller callee n⟩ := by
    refine ⟨?_, h.entered_eq, h.captures_eq, fun m o s hm => Or.inr ?_, fun y hy k => ?_⟩
    · rw [Draft.joined, Draft.joined]
      dsimp only
      rw [hb, hb', Option.getD_some, Option.getD_some]
      exact hcall
    · obtain ⟨b₁, hb₁⟩ := hc m o s (fresh_of_append hcopies hm)
      refine ⟨b₁, ?_⟩
      rw [Draft.joined]
      exact (FlowGraph.mem_edges_withCall ..).2 (Or.inl ((mem_edges_addProcedure ..).2 hb₁))
    · dsimp only
      rw [hposition, hposition]
      exact h.position y hy k
  exact ⟨_, ⟨List.prefix_append .., q.long.extends_joined caller callee n', fun _ hx => hx,
    fun y _ _ k => ⟨hposition _ _ y k, hposition _ _ y k⟩⟩, hok,
    Tag.getElem?_append hnode _, q.long.extends_joined caller callee n' _ _ hv,
    rfl, rfl⟩

end Pair

end ParLoop.Build
