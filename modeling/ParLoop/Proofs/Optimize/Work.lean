import ParLoop.Optimize.Run

/-!
# What the optimizer keeps

Whatever a pass keeps of a procedure, rounds of passes keep, and the optimizer keeps what does not
change when such a procedure is put back (`work_induct`). It does so also when it stops with an
error.
-/

namespace ParLoop.Optimizer

/-- What work leaves, whether it succeeds or not. -/
def left {ε σ α : Type} : EStateM.Result ε σ α → σ
  | .ok _ s => s
  | .error _ s => s

/-- Work keeps what holds of its state, also where it stops with an error. -/
def Maintains {σ α : Type} (I : σ → Prop) (x : EStateM AnalysisError σ α) : Prop :=
  ∀ s, I s → I (left (x s))

theorem Maintains.bind {σ α β : Type} {I : σ → Prop} {x : EStateM AnalysisError σ α}
    {f : α → EStateM AnalysisError σ β} (hx : Maintains I x) (hf : ∀ a, Maintains I (f a)) :
    Maintains I (x >>= f) := by
  intro s hs
  have ht := hx s hs
  show I (left (EStateM.bind x f s))
  unfold EStateM.bind
  cases hr : x s with
  | ok a t =>
    rw [hr] at ht
    exact hf a t ht
  | error e t =>
    rw [hr] at ht
    exact ht

theorem Maintains.forM {σ α : Type} {I : σ → Prop} {f : α → EStateM AnalysisError σ Unit}
    {l : List α} (hf : ∀ a ∈ l, Maintains I (f a)) : Maintains I (l.forM f) := by
  induction l with
  | nil => exact fun s hs => hs
  | cons a l ih =>
    exact (hf a (by simp)).bind fun _ => ih fun b hb => hf b (by simp [hb])

/-- Work that starts by reading its state. -/
theorem bind_get {σ α : Type} (k : σ → EStateM AnalysisError σ α) (s : σ) :
    (get >>= k) s = k s s := rfl

/-- Passes keep a property of procedures. -/
def KeptByPasses (cap : Nat) (I : Procedure → Prop) : Prop :=
  ∀ (pass : Pass) (f f' : Procedure) (count : Nat), I f → pass.apply f cap = .ok (f', count) → I f'

variable {cap : Nat} {I : Procedure → Prop}

theorem maintains_step (hI : KeptByPasses cap I) (pass : Pass) :
    Maintains (fun s => I s.1) (step cap pass) := by
  rintro ⟨f, t⟩ hf
  unfold step
  rw [bind_get]
  dsimp only
  -- A pass that fails or changes nothing leaves the procedure as it is.
  cases happly : pass.apply f cap with
  | error e => exact hf
  | ok r =>
    obtain ⟨f', count⟩ := r
    cases count with
    | zero => exact hf
    | succ count => exact hI pass f f' _ hf happly

theorem maintains_rounds (hI : KeptByPasses cap I) (n : Nat) :
    Maintains (fun s => I s.1) (rounds cap n) := by
  induction n with
  | zero => exact fun s hs => hs
  | succ n ih =>
    refine (maintains_step hI .reuse).bind fun reused =>
      (maintains_step hI .forward).bind fun forwarded => ?_
    split
    · exact ih
    · exact fun s hs => hs

/-- Work on a procedure keeps what holds of a program, if putting back the procedure does. -/
theorem maintains_within {J : Program → Prop} {f : Procedure}
    {put : Program → Procedure → Program} (hI : KeptByPasses cap I) (hf : I f)
    (hput : ∀ q g, J q → I g → J (put q g)) (n : Nat) :
    Maintains (fun s => J s.1) (within f put (rounds cap n)) := by
  rintro ⟨q, t⟩ hq
  have hwork := maintains_rounds hI n (f, t) hf
  unfold within
  dsimp only
  -- The procedure is put back in both cases.
  cases hr : rounds cap n (f, t) with
  | ok u s =>
    rw [hr] at hwork
    exact hput q s.1 hq hwork
  | error e s =>
    rw [hr] at hwork
    exact hput q s.1 hq hwork

/-- **What the optimizer keeps**: a relation of procedures that passes keep, and a property of
programs that putting back related procedures keeps. -/
theorem work_induct {R : Procedure → Procedure → Prop} {J : Program → Prop} {p : Program}
    (hrefl : ∀ f, R f f) (hR : ∀ f, KeptByPasses cap (R f))
    (hbody : ∀ q g, J q → R p.root g → J { q with body := g.body })
    (hprocedure : ∀ e ∈ p.procedures.entries, ∀ q g, J q → R e.2 g →
      J { q with procedures := q.procedures.insert e.1 g })
    (hp : J p) (maxRounds : Nat) : J (left (work cap maxRounds (p, {}))).1 := by
  have hroot := maintains_within (hR p.root) (hrefl p.root) hbody maxRounds
  have hprocedures : Maintains (fun s => J s.1) (p.procedures.entries.forM fun e => within e.2
      (fun p f => { p with procedures := p.procedures.insert e.1 f }) (rounds cap maxRounds)) :=
    Maintains.forM fun e he =>
      maintains_within (hR e.2) (hrefl e.2) (hprocedure e he) maxRounds
  exact hroot.bind (fun _ => hprocedures) (p, {}) hp

end ParLoop.Optimizer
