import ParLoop.Descriptor
import ParLoop.Proofs.Expr.Subterms
import ParLoop.Proofs.Kind.Consistent

/-!
# What is known of an expression

* `evaluate_denotes`: if what is known of the variables is true of their values in two iterations,
  what is found for an expression is true of the numbers that it may have there (`Denotes`);
  `evaluate_consistent` says this of numbers that are given for all expressions (`Valuation`).
* `evaluate_determined`: if something is found for an expression, then its value is determined by
  the values of its variables, in the order of their occurrences.

Both need that no sign is lost (`KeepsSigns`): the negation of a value known to be one is not taken
to be one.
-/

namespace ParLoop.Descriptor

open Kinds

/-- Numbers of expressions that respect integer arithmetic. The numbers of elements, doubles, calls,
conditionals, comparisons and generic operators are arbitrary. -/
structure Valuation (d : Division) where
  value : Expr → Int
  int : ∀ n, value (.int n) = n
  neg : ∀ e, value (.neg e) = -value e
  paren : ∀ e, value (.paren e) = value e
  add : ∀ l r, value (.binary .add l r) = value l + value r
  subtract : ∀ l r, value (.binary .subtract l r) = value l - value r
  multiply : ∀ l r, value (.binary .multiply l r) = value l * value r
  divide : ∀ l r, value (.binary .divide l r) = d.quotient (value l) (value r)
  modulo : ∀ l r, value (.binary .modulo l r) = d.remainder (value l) (value r)

/-- No part of an expression negates a value known to be one, or subtracts it from a value known to
be zero. -/
structure KeepsSigns (facts : OrderedSet Descriptor) (e : Expr) : Prop where
  neg : ∀ t, .neg t ∈ e.subterms → .one ∉ evaluate facts t
  subtract : ∀ l r, .binary .subtract l r ∈ e.subterms →
    ¬ (.zero ∈ evaluate facts l ∧ .one ∈ evaluate facts r)

theorem KeepsSigns.of_mem_subterms {facts : OrderedSet Descriptor} {e t : Expr}
    (h : KeepsSigns facts e) (ht : t ∈ e.subterms) : KeepsSigns facts t :=
  ⟨fun s hs => h.neg s (Expr.mem_subterms_trans ht hs),
    fun l r hs => h.subtract l r (Expr.mem_subterms_trans ht hs)⟩

theorem KeepsSigns.of_mem_children {facts : OrderedSet Descriptor} {e c : Expr}
    (h : KeepsSigns facts e) (hc : c ∈ e.children) : KeepsSigns facts c :=
  h.of_mem_subterms (Expr.mem_subterms_of_mem_children hc c.self_mem_subterms)

section Operands

variable {facts : OrderedSet Descriptor} {e l r : Expr} {op : BinaryOp}

theorem KeepsSigns.of_neg (h : KeepsSigns facts (.neg e)) : KeepsSigns facts e :=
  h.of_mem_children (by simp)

theorem KeepsSigns.of_paren (h : KeepsSigns facts (.paren e)) : KeepsSigns facts e :=
  h.of_mem_children (by simp)

theorem KeepsSigns.left (h : KeepsSigns facts (.binary op l r)) : KeepsSigns facts l :=
  h.of_mem_children (by simp)

theorem KeepsSigns.right (h : KeepsSigns facts (.binary op l r)) : KeepsSigns facts r :=
  h.of_mem_children (by simp)

/-- A value known to be one is not subtracted from a value known to be zero. -/
theorem KeepsSigns.one_not_mem_negate (h : KeepsSigns facts (.binary .subtract l r))
    (h0 : .zero ∈ evaluate facts l) : .one ∉ (evaluate facts r).negate :=
  fun h1 => h.subtract l r (Expr.self_mem_subterms _) ⟨h0, mem_negate.1 h1⟩

end Operands

/-- What is known of variables is true of two of their values. -/
def Described (facts : OrderedSet Descriptor) (least : Int) (x : String) (m n : Int) : Prop :=
  (kindsOf facts x).WellFormed ∧ Consistent least (kindsOf facts x) m n

variable {d : Division} {facts : OrderedSet Descriptor} {least : Int}

theorem evaluate_subtract (l r : Expr) : evaluate facts (.binary .subtract l r) =
    (evaluate facts l).add (evaluate facts r).negate := rfl

/-- An expression may have a number, given those of the variables. Elements, doubles, calls,
conditionals, comparisons and generic operators may have any number, each time they occur. -/
inductive Denotes (d : Division) (ρ : String → Int) : Expr → Int → Prop where
  | var (x : String) : Denotes d ρ (.var x) (ρ x)
  | int (n : Int) : Denotes d ρ (.int n) n
  | neg {e : Expr} {n : Int} : Denotes d ρ e n → Denotes d ρ (.neg e) (-n)
  | paren {e : Expr} {n : Int} : Denotes d ρ e n → Denotes d ρ (.paren e) n
  | add {l r : Expr} {m n : Int} : Denotes d ρ l m → Denotes d ρ r n →
      Denotes d ρ (.binary .add l r) (m + n)
  | subtract {l r : Expr} {m n : Int} : Denotes d ρ l m → Denotes d ρ r n →
      Denotes d ρ (.binary .subtract l r) (m - n)
  | multiply {l r : Expr} {m n : Int} : Denotes d ρ l m → Denotes d ρ r n →
      Denotes d ρ (.binary .multiply l r) (m * n)
  | divide {l r : Expr} {m n : Int} : Denotes d ρ l m → Denotes d ρ r n →
      Denotes d ρ (.binary .divide l r) (d.quotient m n)
  | modulo {l r : Expr} {m n : Int} : Denotes d ρ l m → Denotes d ρ r n →
      Denotes d ρ (.binary .modulo l r) (d.remainder m n)
  | generic (s : String) (l r : Expr) (n : Int) : Denotes d ρ (.binary (.generic s) l r) n
  | compare (c : Comparison) (l r : Expr) (n : Int) : Denotes d ρ (.binary (.compare c) l r) n
  | access (a : String) (is : List Expr) (n : Int) : Denotes d ρ (.access a is) n
  | double (x : Double) (n : Int) : Denotes d ρ (.double x) n
  | cond (c t f : Expr) (n : Int) : Denotes d ρ (.cond c t f) n
  | call (p : String) (es : List Expr) (n : Int) : Denotes d ρ (.call p es) n

/-- The numbers of a valuation are numbers that the expressions may have. -/
theorem Valuation.denotes (V : Valuation d) (e : Expr) :
    Denotes d (fun x => V.value (.var x)) e (V.value e) := by
  induction e with
  | var x => exact .var x
  | access a is => exact .access a is _
  | int n => rw [V.int]; exact .int n
  | double x => exact .double x _
  | neg e ih => rw [V.neg]; exact .neg ih
  | paren e ih => rw [V.paren]; exact .paren ih
  | cond c t f => exact .cond c t f _
  | call p es => exact .call p es _
  | binary op l r ihl ihr =>
    cases op with
    | add => rw [V.add]; exact .add ihl ihr
    | subtract => rw [V.subtract]; exact .subtract ihl ihr
    | multiply => rw [V.multiply]; exact .multiply ihl ihr
    | divide => rw [V.divide]; exact .divide ihl ihr
    | modulo => rw [V.modulo]; exact .modulo ihl ihr
    | generic s => exact .generic s l r _
    | compare c => exact .compare c l r _

/-- **What is found for an expression is true of its numbers** in two iterations, if what is known
of the variables is true of theirs. -/
theorem evaluate_denotes (hleast : least = 0 ∨ least = 1) {ρ σ : String → Int} {e : Expr}
    (hsigns : KeepsSigns facts e)
    (hvars : ∀ x ∈ e.occurrences, Described facts least x (ρ x) (σ x)) :
    (evaluate facts e).WellFormed ∧ ∀ m n, Denotes d ρ e m → Denotes d σ e n →
      Consistent least (evaluate facts e) m n := by
  induction e with
  | var x =>
    obtain ⟨hw, hc⟩ := hvars x (by simp)
    refine ⟨hw, fun m n hm hn => ?_⟩
    cases hm
    cases hn
    exact hc
  | int v =>
    refine ⟨wellFormed_ofInt v, fun m n hm hn => ?_⟩
    cases hm
    cases hn
    exact consistent_ofInt (by omega) v
  | access a is => exact ⟨wellFormed_empty, fun _ _ _ _ => consistent_empty⟩
  | double x => exact ⟨wellFormed_empty, fun _ _ _ _ => consistent_empty⟩
  | cond c t f => exact ⟨wellFormed_empty, fun _ _ _ _ => consistent_empty⟩
  | call f es => exact ⟨wellFormed_empty, fun _ _ _ _ => consistent_empty⟩
  | neg e ih =>
    rw [Expr.occurrences_neg] at hvars
    obtain ⟨hw, hc⟩ := ih hsigns.of_neg hvars
    have hone : .one ∉ evaluate facts e := hsigns.neg e (Expr.self_mem_subterms _)
    refine ⟨wellFormed_negate hw hone, fun m n hm hn => ?_⟩
    cases hm with
    | neg hm =>
      cases hn with
      | neg hn => exact consistent_negate (hc _ _ hm hn) hone
  | paren e ih =>
    rw [Expr.occurrences_paren] at hvars
    obtain ⟨hw, hc⟩ := ih hsigns.of_paren hvars
    refine ⟨hw, fun m n hm hn => ?_⟩
    cases hm with
    | paren hm =>
      cases hn with
      | paren hn => exact hc _ _ hm hn
  | binary op l r ihl ihr =>
    rw [Expr.occurrences_binary, List.forall_mem_append] at hvars
    obtain ⟨hwl, hcl⟩ := ihl hsigns.left hvars.1
    obtain ⟨hwr, hcr⟩ := ihr hsigns.right hvars.2
    cases op with
    | add =>
      refine ⟨wellFormed_add hwl hwr.toSigned fun _ => hwr.one, fun m n hm hn => ?_⟩
      cases hm with
      | add hml hmr =>
        cases hn with
        | add hnl hnr =>
          have hr := hcr _ _ hmr hnr
          exact consistent_add (by omega) hwl hwr.toSigned (hcl _ _ hml hnl) hr.toVaries
            fun _ => hr.one
    | subtract =>
      have hone := hsigns.one_not_mem_negate
      rw [evaluate_subtract]
      refine ⟨wellFormed_add hwl (signed_negate hwr.toSigned) fun h0 h1 => absurd h1 (hone h0),
        fun m n hm hn => ?_⟩
      cases hm with
      | subtract hml hmr =>
        cases hn with
        | subtract hnl hnr =>
          rw [Int.sub_eq_add_neg, Int.sub_eq_add_neg]
          exact consistent_add (by omega) hwl (signed_negate hwr.toSigned) (hcl _ _ hml hnl)
            (varies_negate (hcr _ _ hmr hnr).toVaries) fun h0 h1 => absurd h1 (hone h0)
    | multiply =>
      refine ⟨wellFormed_multiply hwl hwr, fun m n hm hn => ?_⟩
      cases hm with
      | multiply hml hmr =>
        cases hn with
        | multiply hnl hnr =>
          exact consistent_multiply hleast hwl hwr (hcl _ _ hml hnl) (hcr _ _ hmr hnr)
    | divide =>
      refine ⟨wellFormed_divide hwl, fun m n hm hn => ?_⟩
      cases hm with
      | divide hml hmr =>
        cases hn with
        | divide hnl hnr => exact consistent_divide d (hcl _ _ hml hnl) (hcr _ _ hmr hnr)
    | modulo =>
      refine ⟨wellFormed_modulo, fun m n hm hn => ?_⟩
      cases hm with
      | modulo hml hmr =>
        cases hn with
        | modulo hnl hnr => exact consistent_modulo d (hcl _ _ hml hnl) (hcr _ _ hmr hnr)
    | generic s => exact ⟨wellFormed_empty, fun _ _ _ _ => consistent_empty⟩
    | compare c => exact ⟨wellFormed_empty, fun _ _ _ _ => consistent_empty⟩

/-- What is found for an expression is true of its values in two valuations, if what is known of the
variables is true of theirs. -/
theorem evaluate_consistent (hleast : least = 0 ∨ least = 1) (V W : Valuation d) {e : Expr}
    (hsigns : KeepsSigns facts e)
    (hvars : ∀ x ∈ e.occurrences, Described facts least x (V.value (.var x)) (W.value (.var x))) :
    (evaluate facts e).WellFormed ∧
      Consistent least (evaluate facts e) (V.value e) (W.value e) := by
  obtain ⟨hw, hc⟩ := evaluate_denotes (d := d) hleast hsigns hvars
  exact ⟨hw, hc _ _ (V.denotes e) (W.denotes e)⟩

/-! ### Values that are determined -/

section Determined

variable {α : Type} {f f' : String → String × α}

/-- Two expressions are the same but for the names of their variables, and these stand for the same
things in the order of their occurrences. -/
structure Matches (f f' : String → String × α) (e e' : Expr) : Prop where
  substitute_eq : e.substitute (Expr.relabel fun x => (f x).1) =
    e'.substitute (Expr.relabel fun x => (f' x).1)
  occurrences_eq : e.occurrences.map f = e'.occurrences.map f'

theorem length_occurrences_eq {e e' : Expr}
    (h : e.substitute (Expr.relabel fun x => (f x).1) =
      e'.substitute (Expr.relabel fun x => (f' x).1)) :
    e.occurrences.length = e'.occurrences.length := by
  have := congrArg (fun t => t.occurrences.length) h
  simpa [Expr.occurrences_substitute] using this

theorem matches_var {x : String} {e' : Expr} (h : Matches f f' (.var x) e') :
    ∃ x', e' = .var x' ∧ f x = f' x' := by
  obtain ⟨hs, ho⟩ := h
  cases e' <;> simp [Expr.substitute, Expr.relabel] at hs
  exact ⟨_, rfl, by simpa using ho⟩

theorem matches_int {n : Int} {e' : Expr} (h : Matches f f' (.int n) e') : e' = .int n := by
  obtain ⟨hs, -⟩ := h
  cases e' <;> simp [Expr.substitute, Expr.relabel] at hs
  rw [hs]

theorem matches_neg {e e' : Expr} (h : Matches f f' (.neg e) e') :
    ∃ t, e' = .neg t ∧ Matches f f' e t := by
  obtain ⟨hs, ho⟩ := h
  cases e' <;> simp [Expr.substitute, Expr.relabel] at hs
  exact ⟨_, rfl, hs, by simpa using ho⟩

theorem matches_paren {e e' : Expr} (h : Matches f f' (.paren e) e') :
    ∃ t, e' = .paren t ∧ Matches f f' e t := by
  obtain ⟨hs, ho⟩ := h
  cases e' <;> simp [Expr.substitute, Expr.relabel] at hs
  exact ⟨_, rfl, hs, by simpa using ho⟩

theorem matches_binary {op : BinaryOp} {l r e' : Expr} (h : Matches f f' (.binary op l r) e') :
    ∃ l' r', e' = .binary op l' r' ∧ Matches f f' l l' ∧ Matches f f' r r' := by
  obtain ⟨hs, ho⟩ := h
  cases e' <;> simp [Expr.substitute, Expr.relabel] at hs
  case binary op' l' r' =>
    obtain ⟨rfl, hl, hr⟩ := hs
    have hlength := length_occurrences_eq hl
    have ho : l.occurrences.map f ++ r.occurrences.map f =
        l'.occurrences.map f' ++ r'.occurrences.map f' := by
      simpa using ho
    obtain ⟨hol, hor⟩ := List.append_inj ho (by simpa using hlength)
    exact ⟨l', r', rfl, ⟨hl, hol⟩, ⟨hr, hor⟩⟩

/-- **What is known is determined.** Two expressions that match have the same value if something is
known of one of them. -/
theorem evaluate_determined {V W : Valuation d} {e e' : Expr} (hm : Matches f f' e e')
    (hvars : ∀ x x', f x = f' x' → V.value (.var x) = W.value (.var x'))
    (hdefinite : ∀ t ∈ e.subterms, Definite (evaluate facts t) (V.value t))
    (hknown : (evaluate facts e).Known) : V.value e = W.value e' := by
  have hparts : ∀ {e c : Expr}, c ∈ e.children →
      (∀ t ∈ e.subterms, Definite (evaluate facts t) (V.value t)) →
      ∀ t ∈ c.subterms, Definite (evaluate facts t) (V.value t) :=
    fun hc h t ht => h t (Expr.mem_subterms_of_mem_children hc ht)
  have hempty : ¬ Known ∅ := fun ⟨k, hk⟩ => OrderedSet.not_mem_empty k hk
  induction e generalizing e' with
  | var x =>
    obtain ⟨x', rfl, hx⟩ := matches_var hm
    exact hvars x x' hx
  | int n => rw [matches_int hm, V.int, W.int]
  | access a is => exact absurd hknown hempty
  | double x => exact absurd hknown hempty
  | cond c t f => exact absurd hknown hempty
  | call p es => exact absurd hknown hempty
  | neg e ih =>
    obtain ⟨t, rfl, ht⟩ := matches_neg hm
    rw [V.neg, W.neg, ih ht (hparts (by simp) hdefinite) (known_of_negate hknown)]
  | paren e ih =>
    obtain ⟨t, rfl, ht⟩ := matches_paren hm
    rw [V.paren, W.paren]
    exact ih ht (hparts (by simp) hdefinite) hknown
  | binary op l r ihl ihr =>
    obtain ⟨l', r', rfl, hml, hmr⟩ := matches_binary hm
    have hpl := hparts (e := .binary op l r) (c := l) (by simp) hdefinite
    have hpr := hparts (e := .binary op l r) (c := r) (by simp) hdefinite
    have hdl := hpl l l.self_mem_subterms
    have hdr := hpr r r.self_mem_subterms
    have heql := fun h => ihl hml hpl h
    have heqr := fun h => ihr hmr hpr h
    cases op with
    | add =>
      obtain ⟨hl, hr⟩ := known_of_add hknown hdl.apart hdr.apart
      rw [V.add, W.add, heql hl, heqr hr]
    | subtract =>
      obtain ⟨hl, hr⟩ := known_of_add hknown hdl.apart (by simpa [Kind.opposite] using hdr.apart)
      rw [V.subtract, W.subtract, heql hl, heqr (known_of_negate hr)]
    | multiply =>
      rw [V.multiply, W.multiply]
      rcases known_of_multiply hknown with (h0 | h0) | ⟨hl, hr⟩
      · rw [← heql ⟨_, h0⟩, hdl.zero h0, Int.zero_mul, Int.zero_mul]
      · rw [← heqr ⟨_, h0⟩, hdr.zero h0, Int.mul_zero, Int.mul_zero]
      · rw [heql hl, heqr hr]
    | divide =>
      rw [V.divide, W.divide]
      rcases known_of_divide hknown with h0 | ⟨hl, hr⟩
      · rw [← heql ⟨_, h0⟩, hdl.zero h0, d.zero_quotient, d.zero_quotient]
      · rw [heql hl, heqr hr]
    | modulo =>
      rw [V.modulo, W.modulo]
      rcases known_of_modulo hknown with h0 | h1 | ⟨hl, hr⟩
      · rw [← heql ⟨_, h0⟩, hdl.zero h0, d.zero_remainder, d.zero_remainder]
      · rw [← heqr ⟨_, h1⟩, hdr.one h1, d.remainder_one, d.remainder_one]
      · rw [heql hl, heqr hr]
    | generic s => exact absurd hknown hempty
    | compare c => exact absurd hknown hempty

end Determined

end ParLoop.Descriptor
