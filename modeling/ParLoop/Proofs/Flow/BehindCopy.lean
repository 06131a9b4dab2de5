import ParLoop.Proofs.Flow.Aliases
import ParLoop.Proofs.Flow.Solution
import ParLoop.Proofs.FlowGraph.Insert

/-!
# Storages behind a copy

The accesses to an array `s` in a loop body are redirected to another name `u`, which is declared
and assigned a value before each of them. Where nothing is known of the storages of `s`, nothing but
a plain copy of `s` gives `u` a storage, and that storage is `s` itself.
-/

namespace ParLoop

/-- Accesses to one array go to another one. -/
def Renaming.redirect (s u : String) : Renaming := { array := fun a => if a = s then u else a }

/-- Accesses to one array go to another one in the loop body only. -/
def redirectRoot (s u : String) (procedure : String) : Renaming :=
  if procedure = loopName then .redirect s u else {}

theorem redirectRoot_var (s u procedure x : String) : (redirectRoot s u procedure).var x = x := by
  unfold redirectRoot
  split <;> rfl

theorem Expr.accessesName_rename_iff {r : Renaming} {e : Expr} {u : String} :
    (e.rename r).accessesName u = true ↔
      ∃ t ∈ e.subterms, (t.rename r).accessedArray? = some u := by
  simp [accessesName, subterms_rename]

theorem Instr.accessesName_rename_iff {r : Renaming} {i : Instr} {u : String} :
    (i.rename r).accessesName u = true ↔
      ∃ e ∈ i.expressions, (e.rename r).accessesName u = true := by
  simp [accessesName, expressions_rename]

/-- A name in a redirected expression. -/
theorem Expr.mem_names_redirect {s u z : String} {procedure : String} {e : Expr}
    (h : z ∈ (e.rename (redirectRoot s u procedure)).names) : z ∈ e.names ∨
      z = u ∧ s ∈ e.names ∧ (e.rename (redirectRoot s u procedure)).accessesName u = true := by
  rw [mem_names, reads, subterms_rename, List.any_map, List.any_eq_true] at h
  obtain ⟨t, ht, hz⟩ := h
  have hz : (t.rename (redirectRoot s u procedure)).mentioned? = some z := beq_iff_eq.1 hz
  have hread : ∀ {x}, t.mentioned? = some x → x ∈ e.names := fun hx =>
    mem_names.2 (List.any_eq_true.2 ⟨t, ht, beq_iff_eq.2 hx⟩)
  cases t with
  | var x =>
    rw [rename, redirectRoot_var] at hz
    exact Or.inl (hread hz)
  | access a is =>
    have hz : (redirectRoot s u procedure).array a = z := Option.some.inj hz
    by_cases hsame : z = a
    · exact Or.inl (hread (hsame ▸ rfl))
    · refine Or.inr ?_
      have harray : (redirectRoot s u procedure).array a = if procedure = loopName ∧ a = s then u
          else a := by
        unfold redirectRoot
        by_cases hroot : procedure = loopName
        · simp [hroot, Renaming.redirect]
        · simp [hroot]
      rw [harray] at hz
      split at hz
      case isTrue hcase =>
        refine ⟨hz.symm, hread (by rw [← hcase.2]; rfl),
          accessesName_rename_iff.2 ⟨_, ht, congrArg some ?_⟩⟩
        rw [harray, if_pos hcase]
      case isFalse => exact absurd hz.symm hsame
  | _ => cases hz

namespace Flow

/-- Whatever is known of a name other than `u` is known on the other side too, or is a storage that
the copies brought in. -/
def Covered (u : String) (T : Expr → Prop) (facts' facts : OrderedSet Alias) : Prop :=
  ∀ f ∈ facts', f.source ≠ u → Known facts f.source ∨ T f.target

/-- Whatever is known of `u` was brought in by the copies, or something is known of `s` on the other
side. -/
def Behind (s u : String) (T : Expr → Prop) (facts' facts : OrderedSet Alias) : Prop :=
  ∀ f ∈ facts', f.source = u → T f.target ∨ Known facts s

variable {s u : String} {T : Expr → Prop} {facts facts' : OrderedSet Alias}

theorem Covered.filter (h : Covered u T facts' facts) (q : String → Bool) :
    Covered u T (facts'.filter fun f => q f.source) (facts.filter fun f => q f.source) := by
  intro f hf hne
  obtain ⟨hf, hq⟩ := OrderedSet.mem_filter.1 hf
  exact (h f hf hne).imp_left fun ⟨t, ht⟩ => ⟨t, OrderedSet.mem_filter.2 ⟨ht, hq⟩⟩

theorem Covered.rebind (h : Covered u T facts' facts) (x : String) {ts' ts : List Expr}
    (hts : ∀ t ∈ ts', (∃ t', t' ∈ ts) ∨ T t) :
    Covered u T (rebind facts' x ts') (rebind facts x ts) := by
  rintro ⟨y, t⟩ hf hne
  rcases mem_rebind.1 hf with ⟨hf, hy⟩ | ⟨rfl, ht⟩
  · exact (h _ hf hne).imp_left fun ⟨t', ht'⟩ => ⟨t', mem_rebind.2 (Or.inl ⟨ht', hy⟩)⟩
  · exact (hts t ht).imp_left fun ⟨t', ht'⟩ => ⟨t', mem_rebind.2 (Or.inr ⟨rfl, ht'⟩)⟩

/-- What a redirected value denotes. -/
theorem Covered.denoted (h : Covered u T facts' facts) {e : Expr} {procedure : String}
    (hu : e.reads u = false)
    (hbehind : (e.rename (redirectRoot s u procedure)).accessesName u = true →
      Behind s u T facts' facts) {t : Expr}
    (ht : t ∈ denoted facts' (e.rename (redirectRoot s u procedure))) :
    (∃ t', t' ∈ Flow.denoted facts e) ∨ T t := by
  by_cases hvar : ∃ x, e = .var x
  · obtain ⟨x, rfl⟩ := hvar
    exact Or.inl (exists_mem_denoted_var facts x)
  · have hplain : e.asVariable? = none := by
      cases e <;> first | rfl | exact absurd ⟨_, rfl⟩ hvar
    have hplain' : (e.rename (redirectRoot s u procedure)).asVariable? = none := by
      cases e <;> first | rfl | exact absurd ⟨_, rfl⟩ hvar
    obtain ⟨z, hz, hzt⟩ := (mem_denoted_of_not_var hplain').1 ht
    have hknown : ∀ {x}, x ∈ e.names → Known facts x → ∃ t', t' ∈ Flow.denoted facts e :=
      fun hx ⟨t', ht'⟩ => ⟨t', (mem_denoted_of_not_var hplain).2 ⟨_, hx, ht'⟩⟩
    rcases Expr.mem_names_redirect hz with hread | ⟨rfl, hs, hacc⟩
    · have hne : z ≠ u := by
        rintro rfl
        exact absurd (hu.symm.trans (Expr.mem_names.1 hread)) Bool.false_ne_true
      exact (h _ hzt hne).imp_left (hknown hread)
    · exact (hbehind hacc _ hzt rfl).symm.imp_left (hknown hs)

/-- **What is known after a node stays covered.** -/
theorem Covered.carried (h : Covered u T facts' facts) (outside : OrderedSet Alias) (root : String)
    {w : Node} (hw : w.mentions u = false)
    (hbehind : (w.rename (redirectRoot s u)).Accesses u → Behind s u T facts' facts) :
    Covered u T (carried outside root (w.rename (redirectRoot s u)) facts')
      (Flow.carried outside root w facts) := by
  obtain ⟨procedure, kind⟩ := w
  cases kind with
  | start =>
    unfold Flow.carried rebindAt Node.rename NodeKind.rename
    dsimp only
    split
    case isTrue => exact h
    case isFalse =>
      intro f hf hne
      have hmem : ∀ {f}, f ∈ facts ∨ f ∈ outside → f ∈ facts.union outside := OrderedSet.mem_union.2
      rcases OrderedSet.mem_union.1 hf with hf | hf
      · exact (h f hf hne).imp_left (Exists.imp fun t ht => hmem (Or.inl ht))
      · exact Or.inl ⟨f.target, hmem (Or.inr hf)⟩
  | stop => exact h
  | invocation f es => exact h
  | enter a b => exact h.filter fun x => (argumentPrefix b).toList.isPrefixOf x.toList
  | leave a b => exact h.filter fun x => x == resultName a
  | instr i =>
    cases i with
    | declare x =>
      have hnode : Node.rename (redirectRoot s u) ⟨procedure, .instr (.declare x)⟩ =
          ⟨procedure, .instr (.declare x)⟩ := by
        simp [Node.rename, NodeKind.rename, Instr.rename, redirectRoot_var]
      rw [hnode]
      exact h.rebind x fun t ht => Or.inl ⟨t, ht⟩
    | assign target value =>
      cases target with
      | var x =>
        have hnode : Node.rename (redirectRoot s u) ⟨procedure, .instr (.assign (.var x) value)⟩ =
            ⟨procedure, .instr (.assign (.var x) (value.rename (redirectRoot s u procedure)))⟩ := by
          simp [Node.rename, NodeKind.rename, Instr.rename, Expr.rename, redirectRoot_var]
        have hu : value.reads u = false := by
          simp only [Node.mentions, Instr.mentions, Bool.or_eq_false_iff] at hw
          exact hw.2
        rw [hnode] at hbehind ⊢
        refine h.rebind x fun t ht => h.denoted hu (fun hacc => hbehind ⟨_, rfl, ?_⟩) ht
        simp [Instr.accessesName, Instr.expressions, hacc]
      | _ => exact h
    | _ => exact h

theorem Covered.mono (h : Covered u T facts' facts) {more : OrderedSet Alias}
    (hmore : ∀ f ∈ facts, f ∈ more) : Covered u T facts' more := fun f hf hne =>
  (h f hf hne).imp_left fun ⟨t, ht⟩ => ⟨t, hmore _ ht⟩

theorem Behind.mono (h : Behind s u T facts' facts) {more : OrderedSet Alias}
    (hmore : ∀ f ∈ facts, f ∈ more) : Behind s u T facts' more := fun f hf heq =>
  (h f hf heq).imp_right fun ⟨t, ht⟩ => ⟨t, hmore _ ht⟩

/-! ### Along the flows of a graph with inserted pairs -/

/-- The storage that copies of `s` bring in: `s` itself, if they are plain. -/
def Brought (ι : Insertion) (s : String) (t : Expr) : Prop := ι.value = .var s ∧ t = .var s

variable {ι : Insertion}

/-- What holds of the facts at a node of the longer graph, given a solution on the shorter one. -/
def Holds (ι : Insertion) (s : String) (S : Solution Alias) : Tag → OrderedSet Alias → Prop
  | .copy n guarded, facts' => ∃ facts, S.input? n = some facts ∧
      Covered ι.name (Brought ι s) facts' facts ∧
      (guarded = true → Behind s ι.name (Brought ι s) facts' facts)
  | .fresh (some a) _, facts' => ∃ facts, S.output? a = some facts ∧
      Covered ι.name (Brought ι s) facts' facts
  | .fresh none _, _ => False

namespace Detour

variable {outside : OrderedSet Alias} {ts : List Tag} {g' g : FlowGraph} {S : Solution Alias}

end Detour

end Flow

end ParLoop
