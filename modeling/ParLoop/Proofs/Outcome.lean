/-!
# Computations that may fail

What it says of the steps of a computation that the whole computation succeeds.
-/

namespace ParLoop.Outcome

variable {ε α β : Type}

theorem bind_eq_ok {x : Except ε α} {f : α → Except ε β} {b : β} :
    (x >>= f) = .ok b ↔ ∃ a, x = .ok a ∧ f a = .ok b := by
  cases x <;> simp [bind, Except.bind]

theorem bind_eq_error {x : Except ε α} {f : α → Except ε β} {e : ε} :
    (x >>= f) = .error e ↔ x = .error e ∨ ∃ a, x = .ok a ∧ f a = .error e := by
  cases x <;> simp [bind, Except.bind]

theorem exists_of_isOk {x : Except ε α} (h : x.isOk = true) : ∃ a, x = .ok a := by
  cases x with
  | ok a => exact ⟨a, rfl⟩
  | error e => cases h

/-- A sequence of computations with a state succeeds when its parts do. -/
theorem stateT_bind_eq_ok {σ : Type} {x : StateT σ (Except ε) α} {f : α → StateT σ (Except ε) β}
    {s : σ} {r : β × σ} (h : (x >>= f) s = .ok r) : ∃ a t, x s = .ok (a, t) ∧ f a t = .ok r := by
  obtain ⟨⟨a, t⟩, hx, hf⟩ := bind_eq_ok.1 h
  exact ⟨a, t, hx, hf⟩

/-- A sequence of computations with a state fails when one of its parts does. -/
theorem stateT_bind_eq_error {σ : Type} {x : StateT σ (Except ε) α}
    {f : α → StateT σ (Except ε) β} {s : σ} {e : ε} (h : (x >>= f) s = .error e) :
    x s = .error e ∨ ∃ a t, x s = .ok (a, t) ∧ f a t = .error e := by
  rcases bind_eq_error.1 h with hx | ⟨⟨a, t⟩, hx, hf⟩
  · exact Or.inl hx
  · exact Or.inr ⟨a, t, hx, hf⟩

theorem exists_of_mapM_eq_ok {f : α → Except ε β} {l : List α} {r : List β}
    (h : l.mapM f = .ok r) {a : α} (ha : a ∈ l) : ∃ b ∈ r, f a = .ok b := by
  induction l generalizing r with
  | nil => cases ha
  | cons c l ih =>
    rw [List.mapM_cons] at h
    obtain ⟨b, hb, h⟩ := bind_eq_ok.1 h
    obtain ⟨bs, hbs, h⟩ := bind_eq_ok.1 h
    cases h
    rcases List.mem_cons.1 ha with rfl | ha
    · exact ⟨b, by simp, hb⟩
    · obtain ⟨d, hd, hf⟩ := ih hbs ha
      exact ⟨d, by simp [hd], hf⟩

theorem exists_of_foldlM_eq_error {f : β → α → Except ε β} {l : List α} {b : β} {e : ε}
    (h : l.foldlM f b = .error e) : ∃ a ∈ l, ∃ b, f b a = .error e := by
  induction l generalizing b with
  | nil => cases h
  | cons c l ih =>
    rw [List.foldlM_cons] at h
    rcases bind_eq_error.1 h with hc | ⟨b', -, h⟩
    · exact ⟨c, by simp, b, hc⟩
    · obtain ⟨a, ha, hf⟩ := ih h
      exact ⟨a, by simp [ha], hf⟩

/-- A search that finds nothing has tried everything. -/
theorem findSomeM?_eq_none {f : α → Except ε (Option β)} {l : List α} :
    l.findSomeM? f = .ok none ↔ ∀ a ∈ l, f a = .ok none := by
  induction l with
  | nil => exact ⟨fun _ => nofun, fun _ => rfl⟩
  | cons c l ih =>
    rw [List.findSomeM?, bind_eq_ok, List.forall_mem_cons, ← ih]
    constructor
    · rintro ⟨b, hb, h⟩
      cases b with
      | some b => cases h
      | none => exact ⟨hb, h⟩
    · exact fun ⟨hc, h⟩ => ⟨none, hc, h⟩

/-! ### Computations that succeed together -/

/-- Two computations succeed together, and the second then gives what a function makes of the result
of the first. They may fail for different reasons. -/
def Maps (φ : α → β) (x : Except ε α) (y : Except ε β) : Prop :=
  ∀ b, y = .ok b ↔ ∃ a, x = .ok a ∧ φ a = b

variable {γ δ : Type} {φ : α → β} {ψ : γ → δ}

theorem maps_ok (a : α) : Maps φ (.ok a : Except ε α) (.ok (φ a)) := fun b => by simp

theorem maps_error (e e' : ε) : Maps φ (.error e) (.error e') := fun b => by simp

theorem Maps.bind {x : Except ε α} {y : Except ε β} {f : α → Except ε γ} {g : β → Except ε δ}
    (h : Maps φ x y) (hf : ∀ a, Maps ψ (f a) (g (φ a))) : Maps ψ (x >>= f) (y >>= g) := by
  intro d
  simp only [bind_eq_ok, h _]
  constructor
  · rintro ⟨-, ⟨a, ha, rfl⟩, hd⟩
    obtain ⟨c, hc, rfl⟩ := (hf a d).1 hd
    exact ⟨c, ⟨a, ha, hc⟩, rfl⟩
  · rintro ⟨c, ⟨a, ha, hc⟩, rfl⟩
    exact ⟨φ a, ⟨a, ha, rfl⟩, (hf a (ψ c)).2 ⟨c, hc, rfl⟩⟩

theorem Maps.mapM {f : α → Except ε γ} {g : β → Except ε δ} (h : ∀ a, Maps ψ (f a) (g (φ a)))
    (l : List α) : Maps (List.map ψ) (l.mapM f) ((l.map φ).mapM g) := by
  induction l with
  | nil => exact maps_ok []
  | cons a l ih =>
    rw [List.map_cons, List.mapM_cons, List.mapM_cons]
    exact (h a).bind fun c => ih.bind fun cs => maps_ok (c :: cs)

end ParLoop.Outcome
