import ParLoop.Flow.Dependence
import ParLoop.FlowGraph.Build
import ParLoop.Listing.Parse
import ParLoop.Proofs.Flow.Stable
import ParLoop.Proofs.Listing.Numerals
import ParLoop.Proofs.Outcome

/-!
# What enters a procedure

Into a procedure go the facts about variables whose names begin as those of its arguments do. The
name of an argument determines the procedure and the index, since the numeral behind the last
underscore holds none (`argumentName_inj`). But a procedure may be named like an argument: the
arguments of `f_g` go into `f` too. Other foreign arguments do not go in, and those of the procedure
itself always do (`argument_mem_leaving`). In `leakingLoop` a foreign argument gets in
(`leakingLoop_leaks`).
-/

namespace ParLoop

/-! ### Names of arguments -/

theorem toList_argumentPrefix (p : String) :
    (argumentPrefix p).toList = "$arg_".toList ++ (p.toList ++ ['_']) := by
  simp [argumentPrefix]

theorem toList_argumentName (p : String) (k : Nat) :
    (argumentName p k).toList = "$arg_".toList ++ (p.toList ++ '_' :: Nat.toDigits 10 k) := by
  simp [argumentName, argumentPrefix]

theorem underscore_not_mem_toDigits (k : Nat) : '_' ∉ Nat.toDigits 10 k := fun h =>
  absurd (List.all_eq_true.1 (Listing.all_isDigit_toDigits k) '_' h) (by decide)

/-- How a text up to an underscore begins a text whose last underscore is known. -/
theorem append_underscore_prefix_iff {ps qs ds : List Char} (hds : '_' ∉ ds) :
    ps ++ ['_'] <+: qs ++ '_' :: ds ↔ qs = ps ∨ ps ++ ['_'] <+: qs := by
  constructor
  · rintro ⟨rest, h⟩
    rw [List.append_assoc, List.singleton_append] at h
    obtain ⟨as, rfl, has⟩ | ⟨bs, rfl, hbs⟩ := List.append_eq_append_iff.1 h
    · cases as with
      | nil => exact Or.inl (List.append_nil ps)
      | cons a as =>
        cases has
        exact Or.inr ⟨as, by simp⟩
    · cases bs with
      | nil => exact Or.inl (List.append_nil qs).symm
      | cons b bs =>
        -- The underscore behind `ps` would be one of the last characters.
        cases hbs
        exact absurd (List.mem_append_right bs List.mem_cons_self) hds
  · rintro (rfl | h)
    · exact ⟨ds, by simp⟩
    · exact h.trans (List.prefix_append _ _)

/-- The name of an argument begins as those of a procedure do. -/
theorem argumentPrefix_isPrefixOf_iff {p q : String} {k : Nat} :
    (argumentPrefix p).toList.isPrefixOf (argumentName q k).toList = true ↔
      q = p ∨ (p ++ "_").toList <+: q.toList := by
  rw [List.isPrefixOf_iff_prefix, toList_argumentPrefix, toList_argumentName,
    List.prefix_append_right_inj, append_underscore_prefix_iff (underscore_not_mem_toDigits k),
    String.toList_inj, String.toList_append]
  rfl

/-- **The name of an argument determines the procedure and the index.** -/
theorem argumentName_inj {p q : String} {k l : Nat} :
    argumentName p k = argumentName q l ↔ p = q ∧ k = l := by
  refine ⟨fun h => ?_, fun h => by rw [h.1, h.2]⟩
  have hbegins : ∀ {p q : String} {k l : Nat}, argumentName p k = argumentName q l →
      q = p ∨ (p ++ "_").toList <+: q.toList := by
    intro p q k l h
    rw [← argumentPrefix_isPrefixOf_iff (k := l), ← h]
    exact argumentPrefix_isPrefixOf_iff.2 (Or.inl rfl)
  have hpq : p = q := by
    obtain rfl | hp := hbegins h
    · rfl
    · obtain rfl | hq := hbegins h.symm
      · rfl
      · -- Neither name can be longer than the other.
        have hlt := hp.length_le
        have hgt := hq.length_le
        simp at hlt hgt
        omega
  subst hpq
  refine ⟨rfl, ?_⟩
  have hdigits := congrArg String.toList h
  rw [toList_argumentName, toList_argumentName, List.append_cancel_left_eq,
    List.append_cancel_left_eq, List.cons.injEq] at hdigits
  rw [← Listing.digitsValue_toDigits k, hdigits.2, Listing.digitsValue_toDigits]

namespace Flow

/-- **Which arguments go into a procedure, and that their names tell them apart.** The facts about
an argument go in if it is one of the procedure, and else only if the name of its own procedure goes
on from that name with an underscore. -/
theorem argument_mem_leaving {F : Type} [Ord F] (a : Analysis F) {g : FlowGraph} {node : Nat}
    {home caller p : String} (hnode : g.nodes[node]? = some ⟨home, .enter caller p⟩) :
    (∀ (q : String) (k : Nat) (facts : OrderedSet F) (f : F),
      a.subject f = some (argumentName q k) →
        (f ∈ a.leaving g node facts ↔
          f ∈ facts ∧ (q = p ∨ (p ++ "_").toList <+: q.toList))) ∧
      ∀ (q r : String) (k l : Nat), argumentName q k = argumentName r l ↔ q = r ∧ k = l := by
  refine ⟨fun q k facts f hf => ?_, fun q r k l => argumentName_inj⟩
  rw [a.leaving_of_enter facts hnode, OrderedSet.mem_filter, hf, Option.any_some,
    argumentPrefix_isPrefixOf_iff]

/-- A loop that calls a procedure, and then another one from whose name the first name goes on. -/
def leakingLoop : Program :=
  ((Program.ofBody "i" [.call "f_g" [.var "i"], .call "f" []]).withProcedure
    ⟨"f", [], []⟩).withProcedure ⟨"f_g", ["y"], []⟩

/-- What is computed of the facts that leave a node of `leakingLoop`. -/
theorem exists_leaving_leakingLoop (node : Nat)
    (Q : Option Node → OrderedSet Descriptor → Bool)
    (h : (do
      let p ← FlowGraph.ofProgram leakingLoop true
      let r ← (dependence "i").solve p.1 1000
      return (r.output? node).any (Q p.1.nodes[node]?) : Except AnalysisError Bool) = .ok true) :
    ∃ g calls r X, FlowGraph.ofProgram leakingLoop true = .ok (g, calls) ∧
      (dependence "i").solve g 1000 = .ok r ∧ r.output? node = some X ∧
      Q g.nodes[node]? X = true := by
  obtain ⟨p, hp, h⟩ := Outcome.bind_eq_ok.1 h
  obtain ⟨r, hr, h⟩ := Outcome.bind_eq_ok.1 h
  have h := Except.ok.inj h
  rw [Option.any_eq_true] at h
  obtain ⟨X, hX, hQ⟩ := h
  exact ⟨p.1, p.2, r, X, hp, hr, hX, hQ⟩

/-- Into `f` go the facts about its own arguments and not those about the arguments of `h`. -/
theorem argument_mem_leaving_leakingLoop :
    ∃ g calls, FlowGraph.ofProgram leakingLoop true = .ok (g, calls) ∧
      g.nodes[16]? = some ⟨"$loop", .enter "$loop" "f"⟩ ∧
      ∀ (k : Nat) (m : Mark) (facts : OrderedSet Descriptor),
        (⟨argumentName "f" k, m⟩ ∈ (dependence "i").leaving g 16 facts ↔
          ⟨argumentName "f" k, m⟩ ∈ facts) ∧
        ⟨argumentName "h" k, m⟩ ∉ (dependence "i").leaving g 16 facts := by
  obtain ⟨g, calls, r, X, hg, -, -, hQ⟩ := exists_leaving_leakingLoop 16
    (fun n _ => decide (n = some ⟨"$loop", .enter "$loop" "f"⟩)) (by decide +kernel)
  have hn := of_decide_eq_true hQ
  have hmem := (argument_mem_leaving (dependence "i") hn).1
  refine ⟨g, calls, hg, hn, fun k m facts => ⟨?_, fun hin => ?_⟩⟩
  · simpa using hmem "f" k facts ⟨argumentName "f" k, m⟩ rfl
  · exact absurd ((hmem "h" k facts ⟨argumentName "h" k, m⟩ rfl).1 hin).2 (by decide)

/-- What is known of the argument of `f_g` goes into `f`, which has no arguments. -/
theorem leakingLoop_leaks :
    Listing.parse
        "proc f() \x7b \x7d proc f_g(y) \x7b \x7d loop i \x7b call f_g(i); call f(); \x7d" =
      .ok leakingLoop ∧
    ∃ g calls r X, FlowGraph.ofProgram leakingLoop true = .ok (g, calls) ∧
      (dependence "i").solve g 1000 = .ok r ∧
      g.nodes[16]? = some ⟨"$loop", .enter "$loop" "f"⟩ ∧ r.output? 16 = some X ∧
      ⟨argumentName "f_g" 0, .kind .loopDependent⟩ ∈ X := by
  refine ⟨by decide +kernel, ?_⟩
  obtain ⟨g, calls, r, X, hg, hr, hX, hQ⟩ := exists_leaving_leakingLoop 16
    (fun n X => decide (n = some ⟨"$loop", .enter "$loop" "f"⟩ ∧
      ⟨argumentName "f_g" 0, .kind .loopDependent⟩ ∈ X)) (by decide +kernel)
  obtain ⟨hn, hmem⟩ := of_decide_eq_true hQ
  exact ⟨g, calls, r, X, hg, hr, hn, hX, hmem⟩

end Flow

end ParLoop
