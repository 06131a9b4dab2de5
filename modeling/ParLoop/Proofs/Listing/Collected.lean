import ParLoop.Proofs.Listing.Grammar
import ParLoop.Proofs.NameMap

/-!
# Items that are collected one by one

The parser adds each item to those before it and refuses a second loop and a name that is taken
(`Items.add`). Items make a program exactly if they can be added one after the other and a loop is
among them (`makeProgram_iff`).
-/

namespace ParLoop

namespace Listing

variable {β : Type} {m : NameMap β} {name : β → String} {b : β} {bs : List β}

/-! ### Tables -/

/-- A table with some values more, under their own names. -/
def addAll (name : β → String) (m : NameMap β) (bs : List β) : NameMap β :=
  bs.foldl (fun m b => m.insert (name b) b) m

theorem tableOf_eq (name : β → String) (bs : List β) : tableOf name bs = addAll name ∅ bs := by
  rw [tableOf, NameMap.ofList, List.foldl_map]
  rfl

/-- The names of some values are different, and new to a table. -/
def Fresh (name : β → String) (m : NameMap β) (bs : List β) : Prop :=
  (bs.map name).Nodup ∧ ∀ b ∈ bs, m.contains (name b) = false

theorem fresh_nil : Fresh name m [] := ⟨.nil, fun _ hb => absurd hb List.not_mem_nil⟩

/-- The first value is new to the table, and the others to the table that holds it. -/
theorem fresh_cons : Fresh name m (b :: bs) ↔
    m.contains (name b) = false ∧ Fresh name (m.insert (name b) b) bs := by
  simp only [Fresh, List.map_cons, List.nodup_cons, List.forall_mem_cons, List.mem_map,
    ← Bool.not_eq_true, NameMap.contains_insert, not_or]
  constructor
  · rintro ⟨⟨hnew, hnodup⟩, hb, hbs⟩
    exact ⟨hb, hnodup, fun c hc => ⟨fun heq => hnew ⟨c, hc, heq.symm⟩, hbs c hc⟩⟩
  · rintro ⟨hb, hnodup, hbs⟩
    refine ⟨⟨?_, hnodup⟩, hb, fun c hc => (hbs c hc).2⟩
    rintro ⟨c, hc, heq⟩
    exact (hbs c hc).1 heq.symm

theorem fresh_empty : Fresh name ∅ bs ↔ (bs.map name).Nodup :=
  ⟨And.left, fun h => ⟨h, fun _ _ => rfl⟩⟩

/-! ### Items -/

/-- The items read so far and one more, unless it is a second loop or its name is taken. -/
def Items.add (items : Items) : Item → Option Items
  | .symbol s =>
    if items.symbols.contains s.name then none
    else some { items with symbols := items.symbols.insert s.name s }
  | .procedure f =>
    if items.procedures.contains f.name then none
    else some { items with procedures := items.procedures.insert f.name f }
  | .loop l => if items.loop.isSome then none else some { items with loop := some l }

/-- The program that a loop and other items make. -/
def Items.program (items : Items) (l : LoopItem) : Program where
  counter := l.counter
  lower := l.bounds.map (·.1)
  upper := l.bounds.map (·.2)
  body := l.body
  procedures := items.procedures
  symbols := items.symbols

/-- What adding items one after the other comes to. -/
structure Adds (items : Items) (xs : List Item) (items' : Items) : Prop where
  loop : items'.loop.toList = items.loop.toList ++ xs.filterMap Item.loop?
  freshProcedures : Fresh Procedure.name items.procedures (xs.filterMap Item.procedure?)
  freshSymbols : Fresh Symbol.name items.symbols (xs.filterMap Item.symbol?)
  procedures : items'.procedures =
    addAll Procedure.name items.procedures (xs.filterMap Item.procedure?)
  symbols : items'.symbols = addAll Symbol.name items.symbols (xs.filterMap Item.symbol?)

variable {items items' : Items} {x : Item} {xs : List Item}

theorem adds_nil : Adds items [] items' ↔ items' = items := by
  constructor
  · rintro ⟨hloop, -, -, hprocedures, hsymbols⟩
    obtain ⟨loop, procedures, symbols⟩ := items
    obtain ⟨loop', procedures', symbols'⟩ := items'
    have hloop : loop' = loop := by
      cases loop <;> cases loop' <;> simp at hloop ⊢
      exact hloop
    cases hloop
    cases hprocedures
    cases hsymbols
    rfl
  · rintro rfl
    exact ⟨(List.append_nil _).symm, fresh_nil, fresh_nil, rfl, rfl⟩

/-- One item is added, and then the others. -/
theorem adds_cons : Adds items (x :: xs) items' ↔
    ∃ items₁, items.add x = some items₁ ∧ Adds items₁ xs items' := by
  cases x with
  | symbol s =>
    constructor
    · rintro ⟨hloop, hfreshp, hfreshs, hprocedures, hsymbols⟩
      obtain ⟨hnew, hfreshs⟩ := fresh_cons.1 hfreshs
      exact ⟨{ items with symbols := items.symbols.insert s.name s },
        by rw [Items.add, hnew]; rfl, hloop, hfreshp, hfreshs, hprocedures, hsymbols⟩
    · rintro ⟨items₁, hadd, hloop, hfreshp, hfreshs, hprocedures, hsymbols⟩
      obtain ⟨hnew, hadd⟩ := Option.ite_none_left_eq_some.1 hadd
      cases hadd
      exact ⟨hloop, hfreshp, fresh_cons.2 ⟨eq_false_of_ne_true hnew, hfreshs⟩, hprocedures,
        hsymbols⟩
  | procedure f =>
    constructor
    · rintro ⟨hloop, hfreshp, hfreshs, hprocedures, hsymbols⟩
      obtain ⟨hnew, hfreshp⟩ := fresh_cons.1 hfreshp
      exact ⟨{ items with procedures := items.procedures.insert f.name f },
        by rw [Items.add, hnew]; rfl, hloop, hfreshp, hfreshs, hprocedures, hsymbols⟩
    · rintro ⟨items₁, hadd, hloop, hfreshp, hfreshs, hprocedures, hsymbols⟩
      obtain ⟨hnew, hadd⟩ := Option.ite_none_left_eq_some.1 hadd
      cases hadd
      exact ⟨hloop, fresh_cons.2 ⟨eq_false_of_ne_true hnew, hfreshp⟩, hfreshs, hprocedures,
        hsymbols⟩
  | loop l =>
    constructor
    · rintro ⟨hloop, hfreshp, hfreshs, hprocedures, hsymbols⟩
      cases hnone : items.loop with
      | none =>
        rw [hnone] at hloop
        exact ⟨{ items with loop := some l }, by rw [Items.add, hnone]; rfl, hloop, hfreshp,
          hfreshs, hprocedures, hsymbols⟩
      | some l' =>
        -- There would be two loops, but only one can be kept.
        have hlength := congrArg List.length hloop
        have hle : items'.loop.toList.length ≤ 1 := by cases items'.loop <;> simp
        simp [hnone, Item.loop?] at hlength
        omega
    · rintro ⟨items₁, hadd, hloop, hfreshp, hfreshs, hprocedures, hsymbols⟩
      obtain ⟨hnone, hadd⟩ := Option.ite_none_left_eq_some.1 hadd
      cases hadd
      rw [Option.not_isSome_iff_eq_none] at hnone
      refine ⟨?_, hfreshp, hfreshs, hprocedures, hsymbols⟩
      rw [hnone]
      exact hloop

theorem foldlM_add_eq_some : xs.foldlM Items.add items = some items' ↔ Adds items xs items' := by
  induction xs generalizing items with
  | nil =>
    rw [adds_nil, List.foldlM_nil]
    exact ⟨fun h => (Option.some.inj h).symm, fun h => congrArg some h.symm⟩
  | cons x xs ih =>
    rw [adds_cons, List.foldlM_cons]
    show (items.add x).bind _ = some items' ↔ _
    rw [Option.bind_eq_some_iff]
    exact exists_congr fun items₁ => and_congr_right fun _ => ih

/-- **Items make a program** if they can be added one after the other, and one of them is a loop. -/
theorem makeProgram_iff {p : Program} : MakeProgram xs p ↔
    ∃ items l, xs.foldlM Items.add ⟨none, ∅, ∅⟩ = some items ∧ items.loop = some l ∧
      p = items.program l := by
  constructor
  · rintro ⟨⟨bounds, hloop, hlower, hupper⟩, hprocs, hsyms, hprocedures, hsymbols⟩
    refine ⟨⟨some ⟨p.counter, bounds, p.body⟩, p.procedures, p.symbols⟩, _,
      foldlM_add_eq_some.2 ⟨hloop.symm, fresh_empty.2 hprocs, fresh_empty.2 hsyms,
        hprocedures.trans (tableOf_eq ..), hsymbols.trans (tableOf_eq ..)⟩, rfl, ?_⟩
    rw [Items.program, ← hlower, ← hupper]
  · rintro ⟨items, l, hadd, hl, rfl⟩
    obtain ⟨hloop, hfreshp, hfreshs, hprocedures, hsymbols⟩ := foldlM_add_eq_some.1 hadd
    rw [hl] at hloop
    exact ⟨⟨l.bounds, hloop.symm, rfl, rfl⟩, fresh_empty.1 hfreshp, fresh_empty.1 hfreshs,
      hprocedures.trans (tableOf_eq ..).symm, hsymbols.trans (tableOf_eq ..).symm⟩

end Listing

end ParLoop
