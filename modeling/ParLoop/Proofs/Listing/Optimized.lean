import ParLoop.Analyze
import ParLoop.Proofs.Expr.Substitute
import ParLoop.Proofs.Flow.Separable
import ParLoop.Proofs.Listing.Items
import ParLoop.Proofs.Optimize.LockStep

/-!
# Optimized programs are readable

A pass puts names of a body in the place of other names (`readable_substitute`) or of whole values,
so a readable body stays readable (`readable_apply`), and so does a program (`readable_optimized`).
What the optimizer leaves of a program that was read is therefore read back from its listing
(`parse_listing_optimized`).
-/

namespace ParLoop

open ParLoop.Flow

namespace Listing

variable {f : String → Option Expr} {phrase : Phrase} {ts : List Token} {es : List Expr} {i : Instr}

/-! ### Names for names -/

/-- A substitution puts names in the place of variables. -/
def PutsNames (f : String → Option Expr) : Prop :=
  ∀ x t, f x = some t → ∃ y, t = .var y ∧ IsName y

theorem PutsNames.isRenaming (hf : PutsNames f) : Expr.IsRenaming f := fun x t ht =>
  (hf x t ht).imp fun _ h => h.1

theorem finite_substitute (hf : PutsNames f) {e : Expr} (h : e.Finite) :
    (e.substitute f).Finite := by
  have hdoubles : (e.substitute f).doubles = e.doubles.map id := by
    refine Expr.filterMap_subterms_substitute hf.isRenaming (fun e => ?_) e
    cases e with
    | var x =>
      rw [Expr.substitute]
      cases ht : f x with
      | none => rfl
      | some t =>
        obtain ⟨y, rfl⟩ := hf.isRenaming x t ht
        rfl
    | _ => rfl
  intro d hd
  rw [hdoubles, List.map_id] at hd
  exact h d hd

theorem substitute_negated (hf : PutsNames f) (e : Expr) :
    (negated e).substitute f = negated (e.substitute f) := by
  cases e with
  | var x =>
    show Expr.neg ((Expr.var x).substitute f) = negated ((Expr.var x).substitute f)
    rw [Expr.substitute]
    cases ht : f x with
    | none => rfl
    | some t =>
      obtain ⟨y, rfl⟩ := hf.isRenaming x t ht
      rfl
  | _ => rfl

/-- A name in the place of another one. -/
theorem derives_name {t : Token} (ht : t.kind = .identifier) {y : String} (hy : IsName y) :
    ∃ us, Derives .primary us [.var y] ∧ Named us := by
  refine ⟨[{ t with text := y }], .name ht, ?_⟩
  rw [named_cons]
  exact ⟨fun _ => hy, fun _ h => absurd h List.not_mem_nil⟩

/-- A phrase stays one of the same form when names are put in the place of variables. -/
theorem derives_substitute (hf : PutsNames f) (h : Derives phrase ts es) (hnames : Named ts) :
    ∃ us, Derives phrase us (es.map (Expr.substitute f)) ∧ Named us := by
  induction h with
  | plain _ ih =>
    obtain ⟨us, hus, hnamed⟩ := ih hnames
    exact ⟨us, .plain hus, hnamed⟩
  | conditional _ hquestion _ hcolon _ ihtest ihtrue ihfalse =>
    simp only [named_append, named_cons] at hnames
    obtain ⟨hts, hq, hus, hc, hvs⟩ := hnames
    obtain ⟨ts, hts, hnamedt⟩ := ihtest hts
    obtain ⟨us, hus, hnamedu⟩ := ihtrue hus
    obtain ⟨vs, hvs, hnamedv⟩ := ihfalse hvs
    refine ⟨_, .conditional hts hquestion hus hcolon hvs, ?_⟩
    simp only [named_append, named_cons]
    exact ⟨hnamedt, hq, hnamedu, hc, hnamedv⟩
  | unjoined _ ih =>
    obtain ⟨us, hus, hnamed⟩ := ih hnames
    exact ⟨us, .unjoined hus, hnamed⟩
  | tighter _ ih =>
    obtain ⟨us, hus, hnamed⟩ := ih hnames
    exact ⟨us, .tighter hus, hnamed⟩
  | operator _ hop _ ihleft ihright =>
    simp only [named_append, named_cons] at hnames
    obtain ⟨hts, hs, hus⟩ := hnames
    obtain ⟨ts, hts, hnamedt⟩ := ihleft hts
    obtain ⟨us, hus, hnamedu⟩ := ihright hus
    refine ⟨_, .operator hts hop hus, ?_⟩
    simp only [named_append, named_cons]
    exact ⟨hnamedt, hs, hnamedu⟩
  | unsigned _ ih =>
    obtain ⟨us, hus, hnamed⟩ := ih hnames
    exact ⟨us, .unsigned hus, hnamed⟩
  | minus hminus _ ih =>
    obtain ⟨us, hus, hnamed⟩ := ih (named_cons.1 hnames).2
    -- A minus is folded into literals only, and no variable becomes one.
    rw [List.map_singleton, substitute_negated hf]
    exact ⟨_, .minus hminus hus, named_cons.2 ⟨(named_cons.1 hnames).1, hnamed⟩⟩
  | int ht hrange => exact ⟨_, .int ht hrange, hnames⟩
  | double ht => exact ⟨_, .double ht, hnames⟩
  | @name t ht =>
    -- Only here the tokens change: another name is one token, too.
    rw [List.map_singleton, Expr.substitute]
    cases hx : f t.text with
    | none => exact ⟨_, .name ht, hnames⟩
    | some e =>
      obtain ⟨y, rfl, hy⟩ := hf _ _ hx
      exact derives_name ht hy
  | call ht hleft _ hright ih =>
    simp only [named_append, named_cons] at hnames
    obtain ⟨hname, hl, hts, hr⟩ := hnames
    obtain ⟨us, hus, hnamed⟩ := ih hts
    rw [List.map_singleton, Expr.substitute, Expr.substituteList_eq]
    refine ⟨_, .call ht hleft hus hright, ?_⟩
    simp only [named_append, named_cons]
    exact ⟨hname, hl, hnamed, hr⟩
  | access ht _ hsome ih =>
    obtain ⟨hname, hts⟩ := named_cons.1 hnames
    obtain ⟨us, hus, hnamed⟩ := ih hts
    rw [List.map_singleton, Expr.substitute, Expr.substituteList_eq]
    exact ⟨_, .access ht hus (by simpa using hsome), named_cons.2 ⟨hname, hnamed⟩⟩
  | paren hleft _ hright ih =>
    simp only [named_append, named_cons] at hnames
    obtain ⟨hl, hts, hr⟩ := hnames
    obtain ⟨us, hus, hnamed⟩ := ih hts
    refine ⟨_, .paren hleft hus hright, ?_⟩
    simp only [named_append, named_cons]
    exact ⟨hl, hnamed, hr⟩
  | noArguments => exact ⟨[], .noArguments, hnames⟩
  | argument _ _ ihfirst ihrest =>
    obtain ⟨hts, hus⟩ := named_append.1 hnames
    obtain ⟨ts, hts, hnamedt⟩ := ihfirst hts
    obtain ⟨us, hus, hnamedu⟩ := ihrest hus
    exact ⟨_, .argument hts hus, named_append.2 ⟨hnamedt, hnamedu⟩⟩
  | noMore => exact ⟨[], .noMore, hnames⟩
  | more hcomma _ _ ihfirst ihrest =>
    simp only [named_append, named_cons] at hnames
    obtain ⟨hc, hts, hus⟩ := hnames
    obtain ⟨ts, hts, hnamedt⟩ := ihfirst hts
    obtain ⟨us, hus, hnamedu⟩ := ihrest hus
    refine ⟨_, .more hcomma hts hus, ?_⟩
    simp only [named_append, named_cons]
    exact ⟨hc, hnamedt, hnamedu⟩
  | noIndex => exact ⟨[], .noIndex, hnames⟩
  | index hleft _ hright _ ihfirst ihrest =>
    simp only [named_append, named_cons] at hnames
    obtain ⟨hl, hts, hr, hus⟩ := hnames
    obtain ⟨ts, hts, hnamedt⟩ := ihfirst hts
    obtain ⟨us, hus, hnamedu⟩ := ihrest hus
    refine ⟨_, .index hleft hts hright hus, ?_⟩
    simp only [named_append, named_cons]
    exact ⟨hl, hnamedt, hr, hnamedu⟩

/-! ### Instructions -/

theorem derivesInstr_substitute (hf : PutsNames f) (h : DerivesInstr ts i) (hnames : Named ts) :
    ∃ us, DerivesInstr us (i.substitute f) ∧ Named us := by
  cases h with
  | declare hword hx hsemicolon => exact ⟨_, .declare hword hx hsemicolon, hnames⟩
  | jump hword hl hsemicolon => exact ⟨_, .jump hword hl hsemicolon, hnames⟩
  | label hl hcolon => exact ⟨_, .label hl hcolon, hnames⟩
  | branch hword condition hgoto hl hsemicolon =>
    simp only [named_append, named_cons] at hnames
    obtain ⟨hw, hts, hrest⟩ := hnames
    obtain ⟨us, hus, hnamed⟩ := derives_substitute hf condition hts
    refine ⟨_, .branch hword hus hgoto hl hsemicolon, ?_⟩
    simp only [named_append, named_cons]
    exact ⟨hw, hnamed, hrest⟩
  | call hword hp hleft h hright hsemicolon =>
    simp only [named_append, named_cons] at hnames
    obtain ⟨hw, hname, hl, hts, hrest⟩ := hnames
    obtain ⟨us, hus, hnamed⟩ := derives_substitute hf h hts
    refine ⟨_, .call hword hp hleft hus hright hsemicolon, ?_⟩
    simp only [named_append, named_cons]
    exact ⟨hw, hname, hl, hnamed, hrest⟩
  | assign hx hequal value hsemicolon =>
    simp only [named_append, named_cons] at hnames
    obtain ⟨hname, he, hts, hrest⟩ := hnames
    obtain ⟨us, hus, hnamed⟩ := derives_substitute hf value hts
    refine ⟨_, .assign hx hequal hus hsemicolon, ?_⟩
    simp only [named_append, named_cons]
    exact ⟨hname, he, hnamed, hrest⟩
  | store ha h hsome hequal value hsemicolon =>
    simp only [named_append, named_cons] at hnames
    obtain ⟨hname, hus, he, hts, hrest⟩ := hnames
    obtain ⟨us, hus, hnamedu⟩ := derives_substitute hf h hus
    obtain ⟨vs, hvs, hnamedv⟩ := derives_substitute hf value hts
    rw [Instr.substitute, Expr.substitute, Expr.substituteList_eq]
    refine ⟨_, .store ha hus (by simpa using hsome) hequal hvs hsemicolon, ?_⟩
    simp only [named_append, named_cons]
    exact ⟨hname, hnamedu, he, hnamedv, hrest⟩

/-- An instruction stays readable when names are put in the place of variables. -/
theorem readable_substitute (hf : PutsNames f) (h : i.Readable) : (i.substitute f).Readable := by
  obtain ⟨⟨ts, hts, hnames⟩, hfinite⟩ := h
  refine ⟨derivesInstr_substitute hf hts hnames, fun e he => ?_⟩
  rw [Instr.expressions_substitute] at he
  obtain ⟨d, hd, rfl⟩ := List.mem_map.1 he
  exact finite_substitute hf (hfinite d hd)

/-- A primary phrase is an operand on every level. -/
theorem derives_joined_of_primary {e : Expr} (h : Derives .primary ts [e])
    (levels : List (List (TokenKind × BinaryOp))) : Derives (.joined levels) ts [e] := by
  induction levels with
  | nil => exact .unjoined (.unsigned h)
  | cons level levels ih => exact .tighter ih

/-- An assigned value may be replaced by a name. -/
theorem readable_copy {x y : String} {v : Expr} (h : (Instr.assign (.var x) v).Readable)
    (hy : IsName y) : (Instr.assign (.var x) (.var y)).Readable := by
  obtain ⟨⟨ts, hts, hnames⟩, -⟩ := h
  cases hts with
  | assign hx hequal _ hsemicolon =>
    simp only [named_append, named_cons] at hnames
    obtain ⟨hname, he, -, hrest⟩ := hnames
    obtain ⟨us, hus, hnamed⟩ := derives_name hx hy
    have hvalue : DerivesExpr us (.var y) := .plain (derives_joined_of_primary hus _)
    refine ⟨⟨_, .assign hx hequal hvalue hsemicolon, ?_⟩, fun e he => ?_⟩
    · simp only [named_append, named_cons]
      exact ⟨hname, he, hnamed, hrest⟩
    · cases List.mem_singleton.1 he
      exact fun d hd => absurd hd (by simp [Expr.doubles, Expr.subterms, Expr.double?])

theorem isName_of_derives {x : String} (h : Derives phrase ts es) (hnames : Named ts)
    (hx : .var x ∈ es) : IsName x := by
  induction h with
  | plain _ ih | unjoined _ ih | tighter _ ih | unsigned _ ih => exact ih hnames hx
  | @minus _ _ e _ _ _ => cases e <;> cases List.mem_singleton.1 hx
  | name ht =>
    cases List.mem_singleton.1 hx
    exact (named_cons.1 hnames).1 ht
  | argument _ _ ihfirst ihrest =>
    obtain ⟨hts, hus⟩ := named_append.1 hnames
    obtain hx | hx := List.mem_cons.1 hx
    · exact ihfirst hts (List.mem_singleton.2 hx)
    · exact ihrest hus hx
  | more _ _ _ ihfirst ihrest =>
    obtain ⟨-, hnames⟩ := named_cons.1 hnames
    obtain ⟨hts, hus⟩ := named_append.1 hnames
    obtain hx | hx := List.mem_cons.1 hx
    · exact ihfirst hts (List.mem_singleton.2 hx)
    · exact ihrest hus hx
  | index _ _ _ _ ihfirst ihrest =>
    simp only [named_append, named_cons] at hnames
    obtain ⟨-, hts, -, hus⟩ := hnames
    obtain hx | hx := List.mem_cons.1 hx
    · exact ihfirst hts (List.mem_singleton.2 hx)
    · exact ihrest hus hx
  | noArguments | noMore | noIndex => cases hx
  | conditional _ _ _ _ _ _ _ _ | operator _ _ _ _ _ | int _ _ | double _ | call _ _ _ _ _
  | access _ _ _ _ | paren _ _ _ _ => cases List.mem_singleton.1 hx

theorem isName_of_assign {x : String} {v : Expr} (h : (Instr.assign (.var x) v).Readable) :
    IsName x := by
  obtain ⟨⟨ts, hts, hnames⟩, -⟩ := h
  cases hts with
  | assign hx _ _ _ => exact (named_cons.1 hnames).1 hx

theorem isName_of_copy {x y : String} (h : (Instr.assign (.var x) (.var y)).Readable) :
    IsName y := by
  obtain ⟨⟨ts, hts, hnames⟩, -⟩ := h
  cases hts with
  | assign _ _ hvalue _ =>
    simp only [named_append, named_cons] at hnames
    exact isName_of_derives hvalue hnames.2.2.1 (List.mem_singleton.2 rfl)

end Listing

/-! ### Passes -/

namespace Pass

open Listing

variable {g : FlowGraph} {name : String} {body : List Instr} {cap : Nat}

/-- Every available result is held by a name of the body. -/
theorem isName_target (hg : g.IsGraphOf name body) (hbody : ∀ i ∈ body, i.Readable)
    {r : Solution Computation} (hr : available.solve g cap = .ok r) {node : Nat} {f : Computation}
    (hf : f ∈ r.factsAt node) : IsName f.target := by
  obtain ⟨u, i, hi, -, rfl, -⟩ :=
    made_of_mem_factsAt hg.coherent rfl rfl (separable_available g) hr hf
  obtain ⟨k, hk, -⟩ := hg.instr?_eq_some.1 hi
  exact isName_of_assign (hbody _ (List.mem_of_getElem? hk))

/-- Every copy has a name of the body as its source. -/
theorem isName_source (hg : g.IsGraphOf name body) (hbody : ∀ i ∈ body, i.Readable)
    {r : Solution Copy} (hr : copies.solve g cap = .ok r) {node : Nat} {f : Copy}
    (hf : f ∈ r.factsAt node) : IsName f.source := by
  obtain ⟨u, i, hi, rfl, -⟩ := made_of_mem_factsAt hg.coherent rfl rfl (separable_copies g) hr hf
  obtain ⟨k, hk, -⟩ := hg.instr?_eq_some.1 hi
  exact isName_of_copy (hbody _ (List.mem_of_getElem? hk))

/-- Instructions may be replaced by readable ones. -/
theorem readable_replaceAll {change : Instr → Nat → Option Instr}
    (hbody : ∀ i ∈ body, i.Readable)
    (hchange : ∀ i ∈ body, ∀ k j, change i k = some j → j.Readable) :
    ∀ i ∈ (replaceAll change body).1, i.Readable := by
  intro i hi
  obtain ⟨k, hk⟩ := List.mem_iff_getElem?.1 hi
  rw [getElem?_replaceAll] at hk
  obtain ⟨j, hj, rfl⟩ := Option.map_eq_some_iff.1 hk
  have hmem := List.mem_of_getElem? hj
  cases hnew : change j k with
  | none => exact hbody j hmem
  | some new => exact hchange j hmem k new hnew

/-- **A pass keeps a body readable.** -/
theorem readable_apply {p : Pass} {f f' : Procedure} {count : Nat}
    (h : p.apply f cap = .ok (f', count)) (hbody : ∀ i ∈ f.body, i.Readable) :
    ∀ i ∈ f'.body, i.Readable := by
  obtain ⟨change, hchange, rfl⟩ := apply_eq_ok h
  obtain ⟨g, hg, hchange⟩ := Outcome.bind_eq_ok.1 hchange
  have hg := FlowGraph.ofProcedure_isGraphOf hg
  refine readable_replaceAll hbody fun i hi k j hj => ?_
  cases p with
  | reuse =>
    obtain ⟨r, hr, hchange⟩ := Outcome.bind_eq_ok.1 hchange
    cases hchange
    obtain ⟨node, -, hj⟩ := Option.bind_eq_some_iff.1 hj
    obtain ⟨x, c, hc, rfl, rfl⟩ := reuseAt_eq_some hj
    -- The value becomes the name that holds the available result.
    exact readable_copy (hbody _ hi) (isName_target hg hbody hr hc)
  | forward =>
    obtain ⟨r, hr, hchange⟩ := Outcome.bind_eq_ok.1 hchange
    cases hchange
    obtain ⟨node, -, hj⟩ := Option.bind_eq_some_iff.1 hj
    rw [forwardAt_eq_some hj]
    refine readable_substitute (fun x t ht => ?_) (hbody i hi)
    obtain ⟨y, rfl, hc⟩ := sourceOf_eq_some ht
    exact ⟨y, rfl, isName_source hg hbody hr hc⟩

end Pass

/-! ### The optimizer -/

namespace Optimizer

/-- A procedure with the name and the parameters of another one, and with a readable body if the
other one has one. -/
structure KeepsReadable (f g : Procedure) : Prop where
  name_eq : g.name = f.name
  parameters_eq : g.parameters = f.parameters
  body : (∀ i ∈ f.body, i.Readable) → ∀ i ∈ g.body, i.Readable

theorem KeepsReadable.refl (f : Procedure) : KeepsReadable f f := ⟨rfl, rfl, id⟩

theorem keptByPasses_keepsReadable (f : Procedure) (cap : Nat) :
    KeptByPasses cap (KeepsReadable f) := by
  rintro pass g g' count ⟨hname, hparameters, hbody⟩ happly
  have hreadable := Pass.readable_apply happly
  obtain ⟨change, -, rfl⟩ := Pass.apply_eq_ok happly
  exact ⟨hname, hparameters, fun hf => hreadable (hbody hf)⟩

/-- **The optimizer keeps programs readable.** -/
theorem readable_work {p : Program} (h : p.Readable) (cap maxRounds : Nat) :
    (left (work cap maxRounds (p, {}))).1.Readable := by
  refine work_induct KeepsReadable.refl (keptByPasses_keepsReadable · cap)
    (fun q g hq hg => { hq with body := hg.body h.body }) (fun e he q g hq hg => ?_) h maxRounds
  obtain ⟨hname, hreadable⟩ := h.procedures e he
  refine { hq with procedures := fun e' he' => ?_ }
  obtain rfl | he' := NameMap.mem_of_mem_insertList he'
  · refine ⟨hg.name_eq.trans hname, ?_, ?_, hg.body hreadable.body⟩
    · rw [hg.name_eq]
      exact hreadable.name
    · rw [hg.parameters_eq]
      exact hreadable.parameters
  · exact hq.procedures e' he'

end Optimizer

theorem readable_optimized {p q : Program} {c : Config} {tally : Optimizer.Tally} (hp : p.Readable)
    (h : p.optimized c = .ok (q, tally)) : q.Readable := by
  unfold Program.optimized at h
  split at h
  case isTrue =>
    have hwork := Optimizer.readable_work hp c.cap c.maxRounds
    unfold Program.optimize at h
    split at h
    case h_1 hs =>
      cases h
      rw [hs] at hwork
      exact hwork
    case h_2 => cases h
  case isFalse =>
    cases h
    exact hp

/-- **Listings read back.** What the optimizer makes of a program that was read is what its listing
is read as, if no double literal of the program is infinite. -/
theorem parse_listing_optimized {text : String} {p q : Program} {c : Config}
    {tally : Optimizer.Tally} (h : Listing.parse text = .ok p) (hfinite : p.Finite)
    (hopt : p.optimized c = .ok (q, tally)) : Listing.parse q.listing = .ok q :=
  Listing.parse_listing (readable_optimized (Listing.readable_of_parse h hfinite) hopt)

/-- A copy is forwarded, and the listing of the result is read back. -/
theorem parse_listing_optimized_forward :
    let half := Expr.double (.neg (.ofDecimal false (Listing.decimalValue "0.5".toList)))
    let p := Program.ofBody "i" [.assign (.var "x") half, .assign (.var "y") (.var "x"),
      .assign (.access "a" [.var "y"]) (.binary .subtract (.var "i") (.neg (.var "y")))]
    let q := Program.ofBody "i" [.assign (.var "x") half, .assign (.var "y") (.var "x"),
      .assign (.access "a" [.var "x"]) (.binary .subtract (.var "i") (.neg (.var "x")))]
    Listing.parse "loop i \x7b x = -0.5; y = x; a[y] = i - -y; \x7d" = .ok p ∧ p.Finite ∧
      p.optimized {} = .ok (q, ⟨[.forward], 1, true⟩) ∧ Listing.parse q.listing = .ok q := by
  intro half p q
  have hparse : Listing.parse "loop i \x7b x = -0.5; y = x; a[y] = i - -y; \x7d" = .ok p := by
    decide +kernel
  have hfinite : p.Finite := by decide +kernel
  have hopt : p.optimized {} = .ok (q, ⟨[.forward], 1, true⟩) := by decide +kernel
  exact ⟨hparse, hfinite, hopt, parse_listing_optimized hparse hfinite hopt⟩

end ParLoop
