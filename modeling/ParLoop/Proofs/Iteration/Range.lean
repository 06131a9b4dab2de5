import Mathlib.Tactic.Ring
import ParLoop.Listing.Parse
import ParLoop.Proofs.Descriptor.Values
import ParLoop.Proofs.Iteration.Facts
import ParLoop.Verify.Loop

/-!
# Indices over the range of the counter

The counter is taken to be positive, whatever the bounds of the loop. For a polynomial in the
counter with natural coefficients, to be found different in different iterations is to be different
over the range of the counter exactly if the range starts at 0 or later, or is a single number
(`polynomial_differs_iff`).
-/

namespace ParLoop

/-- An expression built from a counter and natural numbers by sums, products and parentheses. -/
inductive Expr.IsPolynomial (counter : String) : Expr → Prop where
  | counter : IsPolynomial counter (.var counter)
  | literal (n : Nat) : IsPolynomial counter (.int n)
  | binary {op : BinaryOp} {l r : Expr} (hop : op = .add ∨ op = .multiply) :
      IsPolynomial counter l → IsPolynomial counter r → IsPolynomial counter (.binary op l r)
  | paren {e : Expr} : IsPolynomial counter e → IsPolynomial counter (.paren e)

/-- The counter of a loop with literal bounds takes a value. -/
def Program.Counts (p : Program) (i : Int) : Prop :=
  ∃ lo hi, p.lower = some (.int lo) ∧ p.upper = some (.int hi) ∧ lo ≤ i ∧ i < hi

namespace Descriptor

open Kinds

variable {counter : String} {e : Expr}

theorem keepsSigns_polynomial (facts : OrderedSet Descriptor) (h : e.IsPolynomial counter) :
    KeepsSigns facts e := by
  have hfree : ∀ t ∈ e.subterms, (∀ s, t ≠ .neg s) ∧ ∀ l r, t ≠ .binary .subtract l r := by
    induction h with
    | counter => simp [Expr.subterms]
    | literal n => simp [Expr.subterms]
    | binary hop _ _ ihl ihr =>
      simp only [Expr.subterms, List.mem_cons, List.mem_append]
      rintro t (rfl | ht | ht)
      · rcases hop with rfl | rfl <;> simp
      · exact ihl t ht
      · exact ihr t ht
    | paren _ ih =>
      simp only [Expr.subterms, List.mem_cons]
      rintro t (rfl | ht)
      · simp
      · exact ih t ht
  exact ⟨fun t ht => absurd rfl ((hfree _ ht).1 t), fun l r ht => absurd rfl ((hfree _ ht).2 l r)⟩

theorem eq_counter_of_polynomial (h : e.IsPolynomial counter) :
    ∀ x ∈ e.occurrences, x = counter := by
  induction h with
  | counter => simp
  | literal n => simp [Expr.occurrences, Expr.subterms, Expr.asVariable?]
  | binary _ _ _ ihl ihr =>
    intro x hx
    rcases List.mem_append.1 (Expr.occurrences_binary .. ▸ hx) with hx | hx
    · exact ihl x hx
    · exact ihr x hx
  | paren _ ih =>
    intro x hx
    exact ih x (Expr.occurrences_paren _ ▸ hx)

variable {d : Division} {start : Nat} {i j m n : Int}

/-- From 0 on, a polynomial found to depend on the loop rises or falls with the counter. -/
theorem polynomial_ne_of_lt (h : e.IsPolynomial counter)
    (hdep : isLoopDependent (Flow.counterFacts counter start) e = true) (hi : 0 ≤ i) (hij : i < j)
    (hm : Denotes d (fun _ => i) e m) (hn : Denotes d (fun _ => j) e n) : m ≠ n := by
  have hvars : ∀ x ∈ e.occurrences, Described (Flow.counterFacts counter start) 0 x i j := by
    intro x hx
    rw [eq_counter_of_polynomial h x hx]
    exact World.described_counter counter start hi hij
  have hc := (evaluate_denotes (Or.inl rfl) (keepsSigns_polynomial _ h) hvars).2 m n hm hn
  exact hc.dependent (OrderedSet.contains_iff.1 hdep)

/-- The product of the counter and its sum with a number. -/
def shiftedSquare (counter : String) (c : Nat) : Expr :=
  .binary .multiply (.var counter) (.paren (.binary .add (.var counter) (.int c)))

theorem isPolynomial_shiftedSquare (counter : String) (c : Nat) :
    (shiftedSquare counter c).IsPolynomial counter :=
  .binary (Or.inr rfl) .counter (.paren (.binary (Or.inl rfl) .counter (.literal c)))

theorem denotes_shiftedSquare (counter : String) (c : Nat) (i : Int) :
    Denotes d (fun _ => i) (shiftedSquare counter c) (i * (i + c)) :=
  .multiply (.var counter) (.paren (.add (.var counter) (.int c)))

theorem isLoopDependent_shiftedSquare (counter : String) (start : Nat) {c : Nat} (hc : 0 < c) :
    isLoopDependent (Flow.counterFacts counter start) (shiftedSquare counter c) = true := by
  have hcounter : kindsOf (Flow.counterFacts counter start) counter =
      .ofList [.positive, .notZero, .loopDependent] := by
    rw [Flow.counterFacts, Flow.kindsOf_redefine, if_pos rfl]
  have hsum : Kinds.add (.ofList [.positive, .notZero, .loopDependent]) (ofInt c) =
      .ofList [.positive, .notZero, .loopDependent] := by
    have hzero : .zero ∉ ofInt (c : Int) := by simp [ofInt]; omega
    ext k
    rw [mem_add (by decide) hzero]
    cases k <;> simp [ofInt, hc]
  rw [isLoopDependent, OrderedSet.contains_iff]
  show .loopDependent ∈ (kindsOf (Flow.counterFacts counter start) counter).multiply
    ((kindsOf (Flow.counterFacts counter start) counter).add (ofInt c))
  rw [hcounter, hsum]
  decide

end Descriptor

open Descriptor

/-- **An index found to depend on the loop differs between iterations** of the loop as it is
bounded, exactly if the counter starts at 0 or later or takes one value only. -/
theorem polynomial_differs_iff {p : Program} {lo hi : Int} (hlo : p.lower = some (.int lo))
    (hhi : p.upper = some (.int hi)) (hlt : lo < hi) (d : Kinds.Division) (g : FlowGraph) :
    (∀ e, e.IsPolynomial p.counter →
      isLoopDependent ((Flow.dependence p.counter).extremal g) e = true →
      ∀ i j, p.Counts i → p.Counts j → i ≠ j → ∀ m n, Denotes d (fun _ => i) e m →
        Denotes d (fun _ => j) e n → m ≠ n) ↔ 0 ≤ lo ∨ hi ≤ lo + 1 := by
  have hcounts : ∀ i, p.Counts i ↔ lo ≤ i ∧ i < hi := by
    intro i
    constructor
    · rintro ⟨lo', hi', hlo', hhi', hi⟩
      cases hlo.symm.trans hlo'
      cases hhi.symm.trans hhi'
      exact hi
    · exact fun h => ⟨lo, hi, hlo, hhi, h⟩
  simp only [hcounts]
  constructor
  · intro h
    by_contra hneg
    -- The product of `i` and `i + c` is the same at `lo` and `lo + 1` for `c = -(2 * lo + 1)`.
    obtain ⟨c, hc⟩ : ∃ c : Nat, (c : Int) = -(2 * lo + 1) :=
      ⟨(-(2 * lo + 1)).toNat, Int.toNat_of_nonneg (by omega)⟩
    refine h (shiftedSquare p.counter c) (isPolynomial_shiftedSquare _ _)
      (isLoopDependent_shiftedSquare _ _ (by omega)) lo (lo + 1) (by omega) (by omega) (by omega)
      _ _ (denotes_shiftedSquare _ _ _) (denotes_shiftedSquare _ _ _) ?_
    rw [hc]
    ring
  · intro hrange e he hdep i j hi hj hij m n hm hn
    rcases Int.lt_or_gt_of_ne hij with hlt | hgt
    · exact polynomial_ne_of_lt he hdep (by omega) hlt hm hn
    · exact (polynomial_ne_of_lt he hdep (by omega) hgt hn hm).symm

/-- A loop that writes the element at the square of its counter. -/
def squareLoop (lo hi : Int) : Program :=
  ((Program.ofBody "i" [.assign (.access "a" [.binary .multiply (.var "i") (.var "i")])
    (.int 0)]).withBounds (.int lo) (.int hi)).withSymbol
      ⟨"a", .localVariable, .named "int", 1, [⟨.initializer, .fresh⟩]⟩

theorem polynomial_differs_squareLoop :
    (squareLoop 0 3).Counts 0 ∧ (squareLoop 0 3).Counts 2 ∧ (0 : Int) * 0 ≠ 2 * 2 := by
  have hzero : (squareLoop 0 3).Counts 0 := ⟨0, 3, rfl, rfl, by decide, by decide⟩
  have htwo : (squareLoop 0 3).Counts 2 := ⟨0, 3, rfl, rfl, by decide, by decide⟩
  refine ⟨hzero, htwo, ?_⟩
  exact (polynomial_differs_iff (p := squareLoop 0 3) rfl rfl (by decide) .truncated
    (.ofRoot loopName)).2 (Or.inl (by decide)) (.binary .multiply (.var "i") (.var "i"))
    (.binary (Or.inr rfl) .counter .counter) (by decide +kernel) 0 2 hzero htwo (by decide) _ _
    (.multiply (.var "i") (.var "i")) (.multiply (.var "i") (.var "i"))

/-- In a loop from -1 the square of the counter is found to depend on the loop, and is the same for
-1 and 1. The loop is taken to be parallelizable. -/
theorem squareLoop_collides :
    Listing.parse "symbol a: local int[] init(fresh); loop i = -1 to 2 \x7b a[i * i] = 0; \x7d" =
        .ok (squareLoop (-1) 2) ∧
      isLoopDependent ((Flow.dependence "i").extremal (.ofRoot loopName))
        (.binary .multiply (.var "i") (.var "i")) = true ∧
      (squareLoop (-1) 2).Counts (-1) ∧ (squareLoop (-1) 2).Counts 1 ∧
      Denotes .truncated (fun _ => -1) (.binary .multiply (.var "i") (.var "i")) 1 ∧
      Denotes .truncated (fun _ => 1) (.binary .multiply (.var "i") (.var "i")) 1 ∧
      Verify.verdict (squareLoop (-1) 2) true 1000 = .ok .parallelizable :=
  ⟨by decide +kernel, by decide +kernel, ⟨-1, 2, rfl, rfl, by decide, by decide⟩,
    ⟨-1, 2, rfl, rfl, by decide, by decide⟩, .multiply (.var "i") (.var "i"),
    .multiply (.var "i") (.var "i"), by decide +kernel⟩

end ParLoop
