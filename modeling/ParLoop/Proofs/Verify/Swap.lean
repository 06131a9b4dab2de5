import ParLoop.Proofs.Listing.Sound
import ParLoop.Proofs.Listing.Items
import ParLoop.Proofs.Verify.OneToOne

/-!
# Exchanging two names

Two names are exchanged everywhere in a program that was read. The analysis then comes to the same
result (`parallelizable_swap`), if two things do not happen. The storage of a group of arrays goes
by the name of its first member, and an array that a called procedure declares goes by its own name:
with other names the two can fall together, or come apart (`localArrayLoop_not_stable`). And facts
about a name are passed on across calls by what the name looks like.
-/

namespace ParLoop

variable {p q : Program} {c : Config} {x y : String}

/-! ### What is analysed -/

/-- A program that was read has its symbols under their names. -/
theorem Listing.symbolsNamed_of_parse {text : String} (h : parse text = .ok p) :
    p.SymbolsNamed := by
  obtain ⟨ts, rest, -, ⟨items, -, hmake⟩, -⟩ := derivesProgram_of_parse h
  intro x s hs
  have hentry := NameMap.mem_entries_of_find? hs
  rw [hmake.symbols] at hentry
  exact (mem_entries_tableOf hentry).2

namespace Program

/-- The optimizer changes no symbols. -/
theorem symbols_optimized {tally : Optimizer.Tally} (h : p.optimized c = .ok (q, tally)) :
    q.symbols = p.symbols := by
  have hwork : (Optimizer.left (Optimizer.work c.cap c.maxRounds (p, {}))).1.symbols = p.symbols :=
    Optimizer.work_induct (R := fun _ _ => True) (J := fun r => r.symbols = p.symbols)
      (fun _ => trivial) (fun _ _ _ _ _ _ _ => trivial) (fun _ _ h _ => h) (fun _ _ _ _ h _ => h)
      rfl c.maxRounds
  unfold optimized at h
  split at h
  case isTrue =>
    unfold optimize at h
    split at h
    case h_1 hs =>
      cases h
      rw [hs] at hwork
      exact hwork
    case h_2 => cases h
  case isFalse =>
    cases h
    rfl

/-- A loop is found parallelizable if what the optimizer makes of it is. -/
theorem analyze_parallelizable_iff : (p.analyze c).parallelizable = true ↔
    ∃ q tally, p.optimized c = .ok (q, tally) ∧
      Verify.verdict q c.interprocedural c.cap = .ok .parallelizable := by
  unfold analyze
  cases hopt : p.optimized c with
  | error e => exact ⟨nofun, nofun⟩
  | ok r =>
    obtain ⟨q, tally⟩ := r
    have hverdict : (Report.ofOutcome p.counter
        (Verify.verdict q c.interprocedural c.cap)).parallelizable = true ↔
          Verify.verdict q c.interprocedural c.cap = .ok .parallelizable := by
      rcases Verify.verdict q c.interprocedural c.cap with e | (- | r) <;> simp [Report.ofOutcome]
    have hreport : ∀ (r : Report) (d : Diagnostic),
        (if tally.converged then r else r.withDiagnostic d).parallelizable = r.parallelizable := by
      intro r d
      split <;> rfl
    dsimp only
    rw [hreport]
    refine hverdict.trans ⟨fun h => ⟨q, tally, rfl, h⟩, ?_⟩
    rintro ⟨q', tally', heq, h⟩
    cases heq
    exact h

end Program

/-! ### Two names -/

theorem keepsCallNames_swap (hx : ¬ServesCalls x) (hy : ¬ServesCalls y) :
    KeepsCallNames (Equiv.swap x y) := by
  intro z hz
  refine Equiv.swap_apply_of_ne_of_ne ?_ ?_
  · rintro rfl
    exact hx hz
  · rintro rfl
    exact hy hz

namespace Verify

/-- **The analysis is stable under the exchange of two names**, if the names do not serve the calls
that it follows, and if it comes to no declaration of a displaced name and to no copy of one whose
storage it may have forgotten. -/
theorem parallelizable_swap {text : String} (hp : Listing.parse text = .ok p)
    (hcalls : ∀ q tally, p.optimized c = .ok (q, tally) →
      q.joinsCalls c.interprocedural = true → ¬ServesCalls x ∧ ¬ServesCalls y)
    (havoids : ∀ q tally g calls, p.optimized c = .ok (q, tally) →
      FlowGraph.ofProgram q c.interprocedural = .ok (g, calls) →
      q.AvoidsDisplaced (Equiv.swap x y) c.interprocedural g) :
    ((p.replace (Equiv.swap x y)).analyze c).parallelizable = (p.analyze c).parallelizable := by
  have hσ := (Equiv.swap x y).injective
  have hverdict : ∀ q tally, p.optimized c = .ok (q, tally) →
      (verdict (q.replace (Equiv.swap x y)) c.interprocedural c.cap = .ok .parallelizable ↔
        verdict q c.interprocedural c.cap = .ok .parallelizable) := by
    intro q tally hq
    have hnamed : q.SymbolsNamed := by
      have hsymbols := Listing.symbolsNamed_of_parse hp
      unfold Program.SymbolsNamed at hsymbols ⊢
      rwa [Program.symbols_optimized hq]
    refine verdict_replace hσ hnamed c.cap (fun hjoins => ?_)
      fun g calls hg => havoids q tally g calls hq hg
    obtain ⟨hx, hy⟩ := hcalls q tally hq hjoins
    exact keepsCallNames_swap hx hy
  rw [Bool.eq_iff_iff, Program.analyze_parallelizable_iff, Program.analyze_parallelizable_iff,
    Program.optimized_replace hσ]
  cases hopt : p.optimized c with
  | error e => exact ⟨nofun, nofun⟩
  | ok r =>
    obtain ⟨q, tally⟩ := r
    constructor
    · rintro ⟨q', tally', heq, h⟩
      cases heq
      exact ⟨q, tally, rfl, (hverdict q tally hopt).1 h⟩
    · rintro ⟨q', tally', heq, h⟩
      cases heq
      exact ⟨_, tally, rfl, (hverdict q tally hopt).2 h⟩

/-- An array that is given from outside. -/
def givenArray (name : String) : Symbol := ⟨name, .parameter, .named "int", 1, []⟩

/-- A loop that copies an array ahead of a call. -/
def copyAheadLoop : Program :=
  let copy : List Instr := [.declare "t", .declare "u", .assign (.var "t") (.var "a")]
  let write : List Instr := [.assign (.var "u") (.call "f" [.var "i"]),
    .assign (.access "t" [.var "i"]) (.binary .add (.access "b" [.var "i"]) (.var "u"))]
  let f : Procedure :=
    ⟨"f", ["k"], [.assign (.var "$result_f") (.binary .add (.var "k") (.int 1))]⟩
  (((Program.ofBody "i" (copy ++ write)).withProcedure f).withSymbol (givenArray "a")).withSymbol
    (givenArray "b")

/-- The text of the loop that copies an array ahead of a call. -/
def copyAheadText : String :=
  "symbol a: param int[]; symbol b: param int[]; proc f(k) \x7b $result_f = k + 1; \x7d " ++
    "loop i \x7b var t; var u; t = a; u = f(i); t[i] = b[i] + u; \x7d"

/-- In the graph of the loop, the array is copied at the last of some nodes that come before the
call. -/
theorem avoids_copyAheadLoop {g : FlowGraph} {calls : CallGraph}
    (hg : FlowGraph.ofProgram copyAheadLoop true = .ok (g, calls)) :
    copyAheadLoop.AvoidsDisplaced (Equiv.swap "a" "b") true g := by
  have hcheck : ∀ r ∈ (FlowGraph.ofProgram copyAheadLoop true).toOption,
      (∀ n ∈ r.1.nodes, ∀ x ∈ n.declared?, ¬copyAheadLoop.Displaced (Equiv.swap "a" "b") x) ∧
      (∀ q ∈ r.1.nodes.toList.zipIdx, ∀ y ∈ q.1.copied?,
        copyAheadLoop.Displaced (Equiv.swap "a" "b") y → q.2 = 4 ∧ y = "a") ∧
      ∀ e ∈ r.1.edges, e.target ∈ [0, 2, 3, 4] →
        e.source ∈ [0, 2, 3, 4] ∧ ∀ n ∈ r.1.nodes[e.source]?, n.loses "a" = false := by
    decide +kernel
  obtain ⟨hdeclared, hcopied, hregion⟩ := hcheck (g, calls) (by rw [hg]; rfl)
  refine ⟨hdeclared, fun _ node n hn y hy hdisplaced hforgets => ?_⟩
  have hmem : (n, node) ∈ g.nodes.toList.zipIdx := by
    rw [List.mem_zipIdx_iff_getElem?, Array.getElem?_toList]
    exact hn
  obtain ⟨rfl, rfl⟩ := hcopied (n, node) hmem y hy hdisplaced
  exact hforgets.not_mem hregion (by decide)

theorem parallelizable_swap_copyAheadLoop :
    Listing.parse copyAheadText = .ok copyAheadLoop ∧ copyAheadLoop.joinsCalls true = true ∧
      copyAheadLoop.Displaced (Equiv.swap "a" "b") "a" ∧
      ((copyAheadLoop.replace (Equiv.swap "a" "b")).analyze {}).parallelizable = true := by
  have hparse : Listing.parse copyAheadText = .ok copyAheadLoop := by decide +kernel
  have hopt : copyAheadLoop.optimized {} = .ok (copyAheadLoop, {}) := by decide +kernel
  have ha : ¬ServesCalls "a" := fun h => absurd h.head?_toList (by decide)
  have hb : ¬ServesCalls "b" := fun h => absurd h.head?_toList (by decide)
  have hresult : (copyAheadLoop.analyze {}).parallelizable = true :=
    Program.analyze_parallelizable_iff.2 ⟨_, _, hopt, by decide +kernel⟩
  refine ⟨hparse, by decide, by decide +kernel, ?_⟩
  rw [parallelizable_swap hparse (fun _ _ _ _ => ⟨ha, hb⟩), hresult]
  intro q tally g calls hq hg
  cases hopt.symm.trans hq
  exact avoids_copyAheadLoop hg

/-- A loop that calls a procedure with an array of its own, under the name of an outside array. -/
def localArrayLoop : Program :=
  let body : List Instr :=
    [.assign (.access "b" [.var "i"]) (.access "a" [.var "i"]), .call "f" [.var "i"]]
  let f : Procedure := ⟨"f", ["k"],
    [.declare "a", .assign (.access "a" [.binary .add (.var "k") (.int 1)]) (.int 1)]⟩
  (((Program.ofBody "i" body).withProcedure f).withSymbol (givenArray "a")).withSymbol
    (givenArray "b")

/-- The text of the loop that calls a procedure with an array of its own. -/
def localArrayText : String :=
  "symbol a: param int[]; symbol b: param int[]; proc f(k) \x7b var a; a[k + 1] = 1; \x7d " ++
    "loop i \x7b b[i] = a[i]; call f(i); \x7d"

/-- By its name, an array of a called procedure is taken for the storage of a group, or not. -/
theorem localArrayLoop_not_stable : Listing.parse localArrayText = .ok localArrayLoop ∧
    (localArrayLoop.analyze {}).parallelizable = false ∧
    ((localArrayLoop.replace (Equiv.swap "a" "b")).analyze {}).parallelizable = true := by
  decide +kernel

end Verify

end ParLoop
