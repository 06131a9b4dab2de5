import ParLoop.Proofs.Optimize.Measure
import ParLoop.Proofs.Optimize.Work

/-!
# The optimizer comes to an end

Every round that changes a body makes it smaller, so after some rounds a round changes nothing
(`exists_reaches`). From that number of rounds on the optimizer leaves one and the same program, and
finds nothing to do in it any more (`optimize_fixedPoint`).
-/

namespace ParLoop

namespace NameMap

variable {β : Type} {m : NameMap β} {name : String} {value : β}

/-- What is there already can be put there again. -/
theorem insert_of_find? (h : m.find? name = some value) : m.insert name value = m := by
  refine eq_of_entries_eq ?_
  obtain ⟨entries, increasing⟩ := m
  show insertList name value entries = entries
  change findList name entries = some value at h
  induction entries with
  | nil => cases h
  | cons e entries ih =>
    obtain ⟨key, v⟩ := e
    obtain ⟨hfirst, hrest⟩ := List.pairwise_cons.1 increasing
    rw [findList] at h
    split at h
    case isTrue heq =>
      cases heq
      cases h
      simp [insertList]
    case isFalse hne =>
      have hgt : compare name key = .gt := by
        have hcontains : contains ⟨entries, hrest⟩ name = true := Option.isSome_iff_exists.2 ⟨_, h⟩
        obtain ⟨e, he, rfl⟩ := List.mem_map.1 (mem_names_of_contains hcontains)
        exact Std.OrientedCmp.gt_of_lt (hfirst e he)
      simp only [insertList, hgt, ih hrest h]

end NameMap

namespace Optimizer

variable {cap n : Nat} {f f' : Procedure} {t : Tally} {e : AnalysisError}

/-! ### Rounds over a procedure -/

/-- A round over a procedure, with the number of instructions replaced. -/
def roundOf (cap : Nat) (f : Procedure) : Except AnalysisError (Procedure × Nat) := do
  let (f, reused) ← Pass.reuse.apply f cap
  let (f, forwarded) ← Pass.forward.apply f cap
  return (f, reused + forwarded)

/-- A pass that replaces nothing leaves the procedure as it is. -/
theorem apply_eq_self {p : Pass} (h : p.apply f cap = .ok (f', 0)) : f' = f := by
  obtain ⟨change, -, rfl, hcount⟩ := Pass.apply_eq_replaceAll h
  rw [Pass.replaceAll_eq_self hcount.symm]

theorem step_eq (p : Pass) : step cap p (f, t) =
    match p.apply f cap with
    | .error e => .error e (f, t)
    | .ok (_, 0) => .ok false (f, t)
    | .ok (f', count + 1) =>
      .ok true (f', { t with passes := t.passes ++ [p], replaced := t.replaced + (count + 1) }) := by
  unfold step
  dsimp only [bind, EStateM.bind, get, getThe, MonadStateOf.get, EStateM.get]
  rcases p.apply f cap with e | ⟨f', - | count⟩ <;> rfl

/-- A step leaves what the pass leaves, and says whether anything was replaced. -/
theorem step_of_apply {p : Pass} {count : Nat} (h : p.apply f cap = .ok (f', count)) :
    ∃ t', step cap p (f, t) = .ok (count != 0) (f', t') ∧ t'.converged = t.converged ∧
      (count = 0 → t' = t) := by
  rw [step_eq, h]
  cases count with
  | zero => exact ⟨t, by rw [apply_eq_self h]; rfl, rfl, fun _ => rfl⟩
  | succ count => exact ⟨_, rfl, rfl, nofun⟩

theorem rounds_of_error (h : roundOf cap f = .error e) :
    ∃ s, rounds cap (n + 1) (f, t) = .error e s := by
  show ∃ s, (step cap .reuse >>= _) (f, t) = .error e s
  rcases Outcome.bind_eq_error.1 h with h | ⟨⟨f₁, reused⟩, hreuse, h⟩
  · exact ⟨(f, t), by simp only [bind, EStateM.bind, step_eq, h]⟩
  · obtain ⟨t₁, hstep₁, -⟩ := step_of_apply (t := t) hreuse
    rcases Outcome.bind_eq_error.1 h with h | ⟨⟨f₂, forwarded⟩, -, h⟩
    · exact ⟨(f₁, t₁), by simp only [bind, EStateM.bind, hstep₁, step_eq, h]⟩
    · cases h

/-- A round that replaces nothing leaves the procedure as it is. -/
theorem roundOf_eq_self (h : roundOf cap f = .ok (f', 0)) : f' = f := by
  obtain ⟨⟨f₁, reused⟩, hreuse, h⟩ := Outcome.bind_eq_ok.1 h
  obtain ⟨⟨f₂, forwarded⟩, hforward, h⟩ := Outcome.bind_eq_ok.1 h
  obtain ⟨rfl, hcount⟩ := Prod.mk.inj (Except.ok.inj h)
  obtain ⟨rfl, rfl⟩ : reused = 0 ∧ forwarded = 0 := by omega
  exact (apply_eq_self hforward).trans (apply_eq_self hreuse)

theorem rounds_of_ok {count : Nat} (h : roundOf cap f = .ok (f', count)) :
    ∃ t', t'.converged = t.converged ∧ (count = 0 → t' = t) ∧
      rounds cap (n + 1) (f, t) = if count = 0 then .ok () (f', t') else rounds cap n (f', t') := by
  obtain ⟨⟨f₁, reused⟩, hreuse, h⟩ := Outcome.bind_eq_ok.1 h
  obtain ⟨⟨f₂, forwarded⟩, hforward, h⟩ := Outcome.bind_eq_ok.1 h
  cases h
  obtain ⟨t₁, hstep₁, hconverged₁, hsame₁⟩ := step_of_apply (t := t) hreuse
  obtain ⟨t₂, hstep₂, hconverged₂, hsame₂⟩ := step_of_apply (t := t₁) hforward
  refine ⟨t₂, hconverged₂.trans hconverged₁, fun hzero => ?_, ?_⟩
  · obtain ⟨rfl, rfl⟩ : reused = 0 ∧ forwarded = 0 := by omega
    exact (hsame₂ rfl).trans (hsame₁ rfl)
  · show (step cap .reuse >>= _) (f, t) = _
    simp only [bind, EStateM.bind, hstep₁, hstep₂]
    by_cases hzero : reused + forwarded = 0
    · obtain ⟨rfl, rfl⟩ : reused = 0 ∧ forwarded = 0 := by omega
      rfl
    · rw [if_neg hzero, if_pos]
      simp only [Bool.or_eq_true, bne_iff_ne, ne_eq]
      omega

/-- Rounds over a procedure stop with an error. -/
def Fails (cap : Nat) (e : AnalysisError) : Nat → Procedure → Prop
  | 0, _ => False
  | n + 1, f => roundOf cap f = .error e ∨
    ∃ f' count, roundOf cap f = .ok (f', count + 1) ∧ Fails cap e n f'

theorem rounds_eq_error_iff : (∃ s, rounds cap n (f, t) = .error e s) ↔ Fails cap e n f := by
  induction n generalizing f t with
  | zero => exact ⟨fun ⟨_, hs⟩ => (nomatch hs), False.elim⟩
  | succ n ih =>
    cases h : roundOf cap f with
    | error e' =>
      obtain ⟨s, hs⟩ := rounds_of_error (n := n) (t := t) h
      simp [hs, Fails, h]
    | ok r =>
      obtain ⟨f', count⟩ := r
      obtain ⟨t', -, hsame, hrounds⟩ := rounds_of_ok (n := n) (t := t) h
      rw [hrounds]
      cases count with
      | zero => simp [Fails, h]
      | succ count =>
        rw [if_neg (Nat.succ_ne_zero count), ih]
        simp [Fails, h]

/-- A pass over a body that has a flow graph fails only where its flow problem takes too long. -/
theorem apply_eq_error {p : Pass} (hf : WellLabelled f.body) (h : p.apply f cap = .error e) :
    ∃ analysis, e = .notConverged analysis cap := by
  obtain ⟨g, hg⟩ := exists_ofProcedure_iff.2 hf
  rcases Outcome.bind_eq_error.1 h with h | ⟨change, -, h⟩
  · rcases Outcome.bind_eq_error.1 h with h | ⟨g', -, h⟩
    · cases hg.symm.trans h
    · cases p with
      | reuse =>
        rcases Outcome.bind_eq_error.1 h with h | ⟨s, -, h⟩
        · exact ⟨_, Flow.solve_eq_error h⟩
        · cases h
      | forward =>
        rcases Outcome.bind_eq_error.1 h with h | ⟨s, -, h⟩
        · exact ⟨_, Flow.solve_eq_error h⟩
        · cases h
  · cases h

theorem roundOf_sameOutline {count : Nat} (h : roundOf cap f = .ok (f', count)) :
    SameOutline f.body f'.body := by
  obtain ⟨⟨f₁, reused⟩, hreuse, h⟩ := Outcome.bind_eq_ok.1 h
  obtain ⟨⟨f₂, forwarded⟩, hforward, h⟩ := Outcome.bind_eq_ok.1 h
  cases h
  exact (Pass.apply_sameOutline hreuse).trans (Pass.apply_sameOutline hforward)

/-- Rounds over a body that has a flow graph fail only where a flow problem takes too long. -/
theorem eq_notConverged_of_fails (hf : WellLabelled f.body) (h : Fails cap e n f) :
    ∃ analysis, e = .notConverged analysis cap := by
  induction n generalizing f with
  | zero => exact h.elim
  | succ n ih =>
    rcases h with h | ⟨f', count, hround, h⟩
    · rcases Outcome.bind_eq_error.1 h with h | ⟨⟨f₁, reused⟩, hreuse, h⟩
      · exact apply_eq_error hf h
      · rcases Outcome.bind_eq_error.1 h with h | ⟨⟨f₂, forwarded⟩, -, h⟩
        · exact apply_eq_error ((Pass.apply_sameOutline hreuse).wellLabelled hf) h
        · cases h
    · exact ih ((roundOf_sameOutline hround).wellLabelled hf) h

/-! ### The last round -/

/-- A round changes nothing. -/
def Settled (cap : Nat) (f : Procedure) : Prop := roundOf cap f = .ok (f, 0)

theorem rounds_of_settled (h : Settled cap f) : rounds cap (n + 1) (f, t) = .ok () (f, t) := by
  obtain ⟨t', -, hsame, hrounds⟩ := rounds_of_ok (n := n) (t := t) h
  rw [hrounds, if_pos rfl, hsame rfl]

/-- From some number of rounds on, rounds over a procedure leave another one, in which a round
changes nothing. -/
structure Reaches (cap : Nat) (f : Procedure) (n : Nat) (f' : Procedure) : Prop where
  settled : Settled cap f'
  same : ∃ body, f' = { f with body := body }
  rounds_eq : ∀ m ≥ n, ∀ t, ∃ t', rounds cap m (f, t) = .ok () (f', t') ∧ t'.converged = t.converged

theorem Reaches.mono (h : Reaches cap f n f') {m : Nat} (hm : n ≤ m) : Reaches cap f m f' :=
  ⟨h.settled, h.same, fun k hk => h.rounds_eq k (hm.trans hk)⟩

theorem size_roundOf_lt {trail : Trail} {count : Nat}
    (ht : ∀ body, SameOutline f.body body → trail.Fits body)
    (h : roundOf cap f = .ok (f', count)) (hcount : count ≠ 0) :
    trail.size f'.body < trail.size f.body := by
  obtain ⟨⟨f₁, reused⟩, hreuse, h⟩ := Outcome.bind_eq_ok.1 h
  obtain ⟨⟨f₂, forwarded⟩, hforward, h⟩ := Outcome.bind_eq_ok.1 h
  cases h
  have hfits := ht f₁.body (Pass.apply_sameOutline hreuse)
  by_cases hreused : reused = 0
  · subst hreused
    cases apply_eq_self hreuse
    exact Pass.size_apply_lt hfits hforward (by omega)
  · have hlt := Pass.size_apply_lt (ht f.body rfl) hreuse hreused
    by_cases hforwarded : forwarded = 0
    · subst hforwarded
      cases apply_eq_self hforward
      exact hlt
    · exact (Pass.size_apply_lt hfits hforward hforwarded).trans hlt

theorem roundOf_same {count : Nat} (h : roundOf cap f = .ok (f', count)) :
    ∃ body, f' = { f with body := body } := by
  obtain ⟨⟨f₁, reused⟩, hreuse, h⟩ := Outcome.bind_eq_ok.1 h
  obtain ⟨⟨f₂, forwarded⟩, hforward, h⟩ := Outcome.bind_eq_ok.1 h
  cases h
  obtain ⟨change₁, -, rfl, -⟩ := Pass.apply_eq_replaceAll hreuse
  obtain ⟨change₂, -, rfl, -⟩ := Pass.apply_eq_replaceAll hforward
  exact ⟨_, rfl⟩

/-- **Rounds over a procedure come to an end**, unless they fail. -/
theorem exists_reaches (h : ∀ n e, ¬ Fails cap e n f) : ∃ n f', Reaches cap f n f' := by
  obtain ⟨trail, htrail⟩ := Trail.exists_fits f.body
  induction hsize : trail.size f.body using WellFoundedLT.induction generalizing f with
  | ind size ih =>
    cases hround : roundOf cap f with
    | error e => exact absurd (Or.inl hround) (h 1 e)
    | ok r =>
      obtain ⟨f₁, count⟩ := r
      cases count with
      | zero =>
        cases roundOf_eq_self hround
        refine ⟨1, f, hround, ⟨f.body, rfl⟩, fun m hm t => ?_⟩
        obtain ⟨m, rfl⟩ := Nat.exists_eq_add_of_le' hm
        exact ⟨t, rounds_of_settled hround, rfl⟩
      | succ count =>
        have hlt := size_roundOf_lt htrail hround (Nat.succ_ne_zero count)
        obtain ⟨n, f', hreaches⟩ := ih _ (hsize ▸ hlt)
          (fun n e hfails => h (n + 1) e (Or.inr ⟨f₁, count, hround, hfails⟩))
          (fun body hbody => htrail body ((roundOf_sameOutline hround).trans hbody)) rfl
        obtain ⟨body₁, rfl⟩ := roundOf_same hround
        obtain ⟨body, rfl⟩ := hreaches.same
        refine ⟨n + 1, _, hreaches.settled, ⟨body, rfl⟩, fun m hm t => ?_⟩
        obtain ⟨m, rfl⟩ := Nat.exists_eq_add_of_le' (Nat.le_of_add_left_le hm)
        obtain ⟨t₁, hconverged₁, -, hrounds⟩ := rounds_of_ok (n := m) (t := t) hround
        obtain ⟨t', hrest, hconverged⟩ := hreaches.rounds_eq m (by omega) t₁
        refine ⟨t', ?_, hconverged.trans hconverged₁⟩
        rw [hrounds, if_neg (Nat.succ_ne_zero count), hrest]

/-! ### Over a whole program -/

variable {p q : Program} {put : Program → Procedure → Program} {es : List (String × Procedure)}

/-- Puts a simplified procedure in its place. -/
def store (key : String) (p : Program) (f : Procedure) : Program :=
  { p with procedures := p.procedures.insert key f }

theorem within_of_reaches (put : Program → Procedure → Program) (h : Reaches cap f n f') {m : Nat}
    (hm : m ≥ n) : ∃ t', within f put (rounds cap m) (p, t) = .ok () (put p f', t') ∧
      t'.converged = t.converged := by
  obtain ⟨t', hrounds, hconverged⟩ := h.rounds_eq m hm t
  exact ⟨t', by simp only [within, hrounds], hconverged⟩

theorem within_of_settled (h : Settled cap f) :
    within f put (rounds cap (n + 1)) (p, t) = .ok () (put p f, t) := by
  simp only [within, rounds_of_settled h]

theorem within_eq_error {s : Program × Tally}
    (h : within f put (rounds cap n) (p, t) = .error e s) :
    Fails cap e n f := by
  cases hrounds : rounds cap n (f, t) with
  | ok u s => simp only [within, hrounds] at h; cases h
  | error e' s =>
    simp only [within, hrounds] at h
    cases h
    exact rounds_eq_error_iff.1 ⟨s, hrounds⟩

theorem not_fails_of_within {u : Unit} {s : Program × Tally}
    (h : within f put (rounds cap n) (p, t) = .ok u s) : ¬ Fails cap e n f := by
  intro hfails
  obtain ⟨s', hs⟩ := rounds_eq_error_iff (t := t).2 hfails
  simp only [within, hs] at h
  cases h

/-- Rounds over the procedures of a list. -/
def roundsOver (cap n : Nat) (es : List (String × Procedure)) : Work Program Unit :=
  es.forM fun e => within e.2 (store e.1) (rounds cap n)

theorem roundsOver_cons (e : String × Procedure) (s : Program × Tally) :
    roundsOver cap n (e :: es) s =
      match within e.2 (store e.1) (rounds cap n) s with
      | .ok _ s => roundsOver cap n es s
      | .error e s => .error e s := by
  show EStateM.bind (within e.2 (store e.1) (rounds cap n)) (fun _ => roundsOver cap n es) s = _
  unfold EStateM.bind
  cases within e.2 (store e.1) (rounds cap n) s <;> rfl

theorem work_eq : work cap n (p, t) =
    match within p.root (fun p f => { p with body := f.body }) (rounds cap n) (p, t) with
    | .ok _ s => roundsOver cap n p.procedures.entries s
    | .error e s => .error e s := by
  show EStateM.bind (within p.root (fun p f => { p with body := f.body }) (rounds cap n))
    (fun _ => roundsOver cap n p.procedures.entries) (p, t) = _
  unfold EStateM.bind
  cases within p.root (fun p f => { p with body := f.body }) (rounds cap n) (p, t) <;> rfl

theorem roundsOver_of_reaches {last : Procedure → Procedure}
    (h : ∀ e ∈ es, Reaches cap e.2 n (last e.2)) {m : Nat} (hm : m ≥ n) :
    ∃ t', roundsOver cap m es (p, t) = .ok () ({ p with
        procedures := es.foldl (fun ps e => ps.insert e.1 (last e.2)) p.procedures }, t') ∧
      t'.converged = t.converged := by
  induction es generalizing p t with
  | nil => exact ⟨t, rfl, rfl⟩
  | cons e es ih =>
    obtain ⟨t₁, hfirst, hconverged₁⟩ :=
      within_of_reaches (p := p) (t := t) (store e.1) (h e (by simp)) hm
    obtain ⟨t', hrest, hconverged⟩ :=
      ih (p := store e.1 p (last e.2)) (t := t₁) fun e he => h e (by simp [he])
    refine ⟨t', ?_, hconverged.trans hconverged₁⟩
    rw [roundsOver_cons, hfirst]
    exact hrest

theorem roundsOver_of_settled (h : ∀ e ∈ es, Settled cap e.2 ∧ p.procedures.find? e.1 = some e.2) :
    roundsOver cap (n + 1) es (p, t) = .ok () (p, t) := by
  induction es with
  | nil => rfl
  | cons e es ih =>
    obtain ⟨hsettled, hfind⟩ := h e (by simp)
    have hstore : store e.1 p e.2 = p := by rw [store, NameMap.insert_of_find? hfind]
    rw [roundsOver_cons, within_of_settled hsettled, hstore]
    exact ih fun e he => h e (by simp [he])

theorem roundsOver_eq_error {s s' : Program × Tally} (h : roundsOver cap n es s = .error e s') :
    ∃ f ∈ es.map (·.2), Fails cap e n f := by
  induction es generalizing s with
  | nil => cases h
  | cons first es ih =>
    rw [roundsOver_cons] at h
    split at h
    case h_1 => exact (ih h).imp fun f ⟨hf, hfails⟩ => ⟨List.mem_cons_of_mem _ hf, hfails⟩
    case h_2 hfirst =>
      cases h
      exact ⟨first.2, by simp, within_eq_error hfirst⟩

theorem not_fails_of_roundsOver {u : Unit} {s s' : Program × Tally}
    (h : roundsOver cap n es s = .ok u s') : ∀ f ∈ es.map (·.2), ¬ Fails cap e n f := by
  induction es generalizing s with
  | nil => simp
  | cons first es ih =>
    rw [roundsOver_cons] at h
    split at h
    case h_1 hfirst => exact List.forall_mem_cons.2 ⟨not_fails_of_within hfirst, ih h⟩
    case h_2 => cases h

/-- The optimizer fails only where rounds over some body do. -/
theorem work_eq_error {s : Program × Tally} (h : work cap n (p, t) = .error e s) :
    ∃ f ∈ p.root :: p.procedures.values, Fails cap e n f := by
  rw [work_eq] at h
  split at h
  case h_1 =>
    exact (roundsOver_eq_error h).imp fun f ⟨hf, hfails⟩ => ⟨List.mem_cons_of_mem _ hf, hfails⟩
  case h_2 hroot =>
    cases h
    exact ⟨p.root, by simp, within_eq_error hroot⟩

theorem not_fails_of_work {u : Unit} {s : Program × Tally} (h : work cap n (p, t) = .ok u s) :
    ∀ f ∈ p.root :: p.procedures.values, ¬ Fails cap e n f := by
  rw [work_eq] at h
  split at h
  case h_1 hroot =>
    exact List.forall_mem_cons.2 ⟨not_fails_of_within hroot, not_fails_of_roundsOver h⟩
  case h_2 => cases h

/-- Where no flow problem takes too long, rounds over no body fail. -/
theorem not_fails_of_built
    (hbuild : ∀ f ∈ p.root :: p.procedures.values, ∃ g, FlowGraph.ofProcedure f = .ok g)
    (hcap : ∀ n analysis, p.optimize n cap ≠ .error (.notConverged analysis cap)) :
    ∀ f ∈ p.root :: p.procedures.values, ∀ n e, ¬ Fails cap e n f := by
  intro f hf n e
  cases hwork : work cap n (p, {}) with
  | ok u s => exact not_fails_of_work hwork f hf
  | error e' s =>
    obtain ⟨f', hf', hfails⟩ := work_eq_error hwork
    obtain ⟨analysis, rfl⟩ :=
      eq_notConverged_of_fails (exists_ofProcedure_iff.1 (hbuild f' hf')) hfails
    exact absurd (by rw [Program.optimize, hwork]) (hcap n analysis)

/-- What is found in a table of simplified procedures is simplified. -/
theorem find?_foldl_insert {last : Procedure → Procedure} {ps : NameMap Procedure} {name : String}
    (h : (es.foldl (fun ps e => ps.insert e.1 (last e.2)) ps).find? name = some f) :
    (∃ e ∈ es, f = last e.2) ∨ ps.find? name = some f ∧ ∀ e ∈ es, e.1 ≠ name := by
  induction es generalizing ps with
  | nil => exact Or.inr ⟨h, by simp⟩
  | cons e es ih =>
    rcases ih h with ⟨e', he', hf⟩ | ⟨hfind, hnone⟩
    · exact Or.inl ⟨e', by simp [he'], hf⟩
    · rw [NameMap.find?_insert] at hfind
      split at hfind
      case isTrue => exact Or.inl ⟨e, by simp, (Option.some_inj.1 hfind).symm⟩
      case isFalse hne => exact Or.inr ⟨hfind, List.forall_mem_cons.2 ⟨hne, hnone⟩⟩

/-- A program with its bodies replaced by those that rounds leave. -/
def replaced (last : Procedure → Procedure) (p : Program) : Program :=
  { p with
    body := (last p.root).body
    procedures := p.procedures.entries.foldl (fun ps e => ps.insert e.1 (last e.2)) p.procedures }

section Replaced

variable {last : Procedure → Procedure}
  (h : ∀ f ∈ p.root :: p.procedures.values, Reaches cap f n (last f))

include h

/-- With rounds enough the optimizer leaves in every body what rounds over it leave. -/
theorem optimize_eq_replaced {m : Nat} (hm : m ≥ n) :
    ∃ t, p.optimize m cap = .ok (replaced last p, t) ∧ t.converged = true := by
  obtain ⟨t₁, hfirst, hconverged₁⟩ := within_of_reaches (p := p) (t := {})
    (fun p f => { p with body := f.body }) (h p.root (by simp)) hm
  obtain ⟨t', hrest, hconverged⟩ := roundsOver_of_reaches
    (p := { p with body := (last p.root).body }) (t := t₁)
    (fun e he => h e.2 (List.mem_cons_of_mem _ (List.mem_map_of_mem he))) hm
  have hwork : work cap m (p, {}) = .ok () (replaced last p, t') := by
    rw [work_eq, hfirst]
    exact hrest
  exact ⟨t', by rw [Program.optimize, hwork], hconverged.trans hconverged₁⟩

theorem settled_of_mem_replaced :
    ∀ f ∈ (replaced last p).root :: (replaced last p).procedures.values, Settled cap f := by
  refine List.forall_mem_cons.2 ⟨?_, fun f hf => ?_⟩
  · have hreaches := h p.root (by simp)
    have hroot : (replaced last p).root = last p.root := by
      obtain ⟨body, hbody⟩ := hreaches.same
      show ({ p.root with body := (last p.root).body } : Procedure) = last p.root
      rw [hbody]
    exact hroot ▸ hreaches.settled
  · obtain ⟨e, he, rfl⟩ := List.mem_map.1 hf
    rcases find?_foldl_insert (NameMap.find?_of_mem he) with ⟨e', he', hlast⟩ | ⟨hold, hnone⟩
    · rw [hlast]
      exact (h e'.2 (List.mem_cons_of_mem _ (List.mem_map_of_mem he'))).settled
    -- No procedure is left as it was: the rounds go over all of them.
    · obtain ⟨e', he', hname⟩ := List.mem_map.1
        (NameMap.mem_names_of_contains (Option.isSome_iff_exists.2 ⟨_, hold⟩))
      exact absurd hname (hnone e' he')

end Replaced

/-- The optimizer has nothing to do in a program whose bodies are settled. -/
theorem optimize_of_settled (h : ∀ f ∈ q.root :: q.procedures.values, Settled cap f) {m : Nat}
    (hm : m ≥ 1) : q.optimize m cap = .ok (q, {}) := by
  obtain ⟨m, rfl⟩ := Nat.exists_eq_add_of_le' hm
  have hwork : work cap (m + 1) (q, {}) = .ok () (q, {}) := by
    rw [work_eq, within_of_settled (h q.root (by simp))]
    exact roundsOver_of_settled fun e he =>
      ⟨h e.2 (List.mem_cons_of_mem _ (List.mem_map_of_mem he)), NameMap.find?_of_mem he⟩
  rw [Program.optimize, hwork]

/-- **The optimizer comes to an end.** If every body has a flow graph and no flow problem takes too
many visits, then from some number of rounds on the optimizer leaves one and the same program and
reports that it is done, and in that program it finds nothing to replace. -/
theorem optimize_fixedPoint (p : Program) (cap : Nat)
    (hbuild : ∀ f ∈ p.root :: p.procedures.values, ∃ g, FlowGraph.ofProcedure f = .ok g)
    (hcap : ∀ n analysis, p.optimize n cap ≠ .error (.notConverged analysis cap)) :
    ∃ (n : Nat) (q : Program),
      (∀ m ≥ n, ∃ t, p.optimize m cap = .ok (q, t) ∧ t.converged = true) ∧
      ∀ m ≥ 1, q.optimize m cap = .ok (q, { passes := [], replaced := 0, converged := true }) := by
  have hreaches : ∀ f : Procedure, ∃ n f',
      f ∈ p.root :: p.procedures.values → Reaches cap f n f' := by
    intro f
    by_cases hf : f ∈ p.root :: p.procedures.values
    · obtain ⟨n, f', h⟩ := exists_reaches (not_fails_of_built hbuild hcap f hf)
      exact ⟨n, f', fun _ => h⟩
    · exact ⟨0, f, fun h => absurd h hf⟩
  choose count last hlast using hreaches
  -- The rounds of all bodies together are enough for each of them.
  have henough : ∀ f ∈ p.root :: p.procedures.values,
      Reaches cap f ((p.root :: p.procedures.values).map count).sum (last f) := fun f hf =>
    (hlast f hf).mono (List.le_sum_of_mem (List.mem_map_of_mem hf))
  exact ⟨_, replaced last p, fun m hm => optimize_eq_replaced henough hm,
    fun m hm => optimize_of_settled (settled_of_mem_replaced henough) hm⟩

/-- A result is reused and a copy of a copy is read at its source, in a loop. -/
theorem optimize_fixedPoint_loop :
    let p := Program.ofBody "i" [.label "again",
      .assign (.var "x") (.binary .add (.var "i") (.int 1)),
      .assign (.var "y") (.binary .add (.var "i") (.int 1)), .assign (.var "z") (.var "y"),
      .branch (.binary (.compare .lt) (.var "z") (.int 3)) "again"]
    (∀ f ∈ p.root :: p.procedures.values, ∃ g, FlowGraph.ofProcedure f = .ok g) ∧
    (∀ n analysis, p.optimize n 1000 ≠ .error (.notConverged analysis 1000)) ∧
    ∃ (n : Nat) (q : Program),
      (∀ m ≥ n, ∃ t, p.optimize m 1000 = .ok (q, t) ∧ t.converged = true) ∧
      ∀ m ≥ 1, q.optimize m 1000 = .ok (q, { passes := [], replaced := 0, converged := true }) := by
  intro p
  let f₁ : Procedure := ⟨loopName, [], [.label "again",
    .assign (.var "x") (.binary .add (.var "i") (.int 1)),
    .assign (.var "y") (.var "x"), .assign (.var "z") (.var "x"),
    .branch (.binary (.compare .lt) (.var "y") (.int 3)) "again"]⟩
  let f₂ : Procedure := { f₁ with body := [.label "again",
    .assign (.var "x") (.binary .add (.var "i") (.int 1)),
    .assign (.var "y") (.var "x"), .assign (.var "z") (.var "x"),
    .branch (.binary (.compare .lt) (.var "x") (.int 3)) "again"] }
  have hfirst : roundOf 1000 p.root = .ok (f₁, 3) := by decide +kernel
  have hsecond : roundOf 1000 f₁ = .ok (f₂, 1) := by decide +kernel
  have hthird : roundOf 1000 f₂ = .ok (f₂, 0) := by decide +kernel
  have hbuild : ∀ f ∈ p.root :: p.procedures.values, ∃ g, FlowGraph.ofProcedure f = .ok g := by
    intro f hf
    cases List.mem_singleton.1 hf
    exact Outcome.exists_of_isOk (by decide +kernel)
  have hcap : ∀ n analysis, p.optimize n 1000 ≠ .error (.notConverged analysis 1000) := by
    intro n analysis h
    unfold Program.optimize at h
    split at h
    case h_1 => cases h
    case h_2 e s hwork =>
      obtain ⟨f, hf, hfails⟩ := work_eq_error hwork
      cases List.mem_singleton.1 hf
      rcases n with - | - | - | n <;> simp [Fails, hfirst, hsecond, hthird] at hfails
  exact ⟨hbuild, hcap, optimize_fixedPoint p 1000 hbuild hcap⟩

end Optimizer

end ParLoop
