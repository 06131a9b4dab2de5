import ParLoop.Proofs.Listing.Readable

/-!
# Programs that are read and listed

The listing of a readable program reads back as the program (`parse_listing`), and a program that
was read is readable if its doubles are finite (`readable_of_parse`).
-/

namespace ParLoop

/-- The expressions in a body. -/
def Procedure.expressions (f : Procedure) : List Expr := f.body.flatMap Instr.expressions

/-- The expressions of a program: those of its bounds and of its bodies. -/
def Program.expressions (p : Program) : List Expr :=
  p.lower.toList ++ p.upper.toList ++ p.root.expressions ++
    p.procedures.values.flatMap Procedure.expressions

/-- No double literal of a program is infinite. -/
def Program.Finite (p : Program) : Prop := ∀ e ∈ p.expressions, e.Finite

instance (p : Program) : Decidable p.Finite :=
  inferInstanceAs (Decidable (∀ e ∈ p.expressions, ∀ d ∈ e.doubles, d.isFinite = true))

namespace Listing

variable {β : Type} {ts us : List Token}

/-! ### Tables -/

theorem addAll_todo {name : β → String} {done m : NameMap β} {todo : List (String × β)}
    (hm : m.entries = done.entries ++ todo) (hnames : ∀ e ∈ todo, name e.2 = e.1) :
    addAll name done (todo.map (·.2)) = m := by
  induction todo generalizing done with
  | nil =>
    rw [List.append_nil] at hm
    exact NameMap.eq_of_entries_eq hm.symm
  | cons e todo ih =>
    obtain ⟨he, hnames⟩ := List.forall_mem_cons.1 hnames
    have hlt : ∀ e' ∈ done.entries, compare e'.1 e.1 = .lt := by
      have hincreasing := m.increasing
      rw [hm, List.pairwise_append] at hincreasing
      exact fun e' he' => hincreasing.2.2 e' he' e List.mem_cons_self
    refine ih ?_ hnames
    show _ = NameMap.insertList (name e.2) e.2 done.entries ++ todo
    rw [he, NameMap.insertList_of_lt hlt, hm, List.append_assoc]
    rfl

/-- A table that holds its values under their own names is the table of its values. -/
theorem tableOf_values {name : β → String} {m : NameMap β}
    (hnames : ∀ e ∈ m.entries, name e.2 = e.1) : tableOf name m.values = m := by
  rw [tableOf_eq]
  exact addAll_todo rfl hnames

theorem nodup_values {name : β → String} {m : NameMap β}
    (hnames : ∀ e ∈ m.entries, name e.2 = e.1) : (m.values.map name).Nodup := by
  have hmap : m.values.map name = m.names := by
    rw [NameMap.values, List.map_map]
    exact List.map_congr_left hnames
  rw [hmap]
  exact m.nodup_names

theorem mem_entries_addAll {name : β → String} {m : NameMap β} {bs : List β} {e : String × β}
    (h : e ∈ (addAll name m bs).entries) : e ∈ m.entries ∨ e.2 ∈ bs ∧ name e.2 = e.1 := by
  induction bs generalizing m with
  | nil => exact Or.inl h
  | cons b bs ih =>
    obtain h | ⟨hmem, hname⟩ := ih h
    · obtain rfl | h := NameMap.mem_of_mem_insertList h
      · exact Or.inr ⟨List.mem_cons_self, rfl⟩
      · exact Or.inl h
    · exact Or.inr ⟨List.mem_cons_of_mem _ hmem, hname⟩

theorem mem_entries_tableOf {name : β → String} {bs : List β} {e : String × β}
    (h : e ∈ (tableOf name bs).entries) : e.2 ∈ bs ∧ name e.2 = e.1 := by
  rw [tableOf_eq] at h
  exact (mem_entries_addAll h).resolve_left List.not_mem_nil

/-! ### Listings are read -/

/-- The values of a table, each on lines of its own. -/
theorem printsAny_values {form : List Token → β → Prop} (text : β → String) {m : NameMap β}
    (h : ∀ e ∈ m.entries, PrintsAny form (text e.2).toList e.2) :
    PrintsAny (Repeated form) (m.values.flatMap fun b => (text b ++ "\n").toList) m.values := by
  refine printsAny_repeated fun b hb => ?_
  obtain ⟨e, he, rfl⟩ := List.mem_map.1 hb
  rw [String.toList_append]
  exact (h e he).append_blanks (by decide)

/-- The items of a listing, in the order in which they are listed. -/
def itemsOf (p : Program) (l : LoopItem) : List Item :=
  p.symbols.values.map .symbol ++ (p.procedures.values.map .procedure ++ [.loop l])

theorem filterMap_itemsOf (p : Program) (l : LoopItem) :
    (itemsOf p l).filterMap Item.loop? = [l] ∧
      (itemsOf p l).filterMap Item.procedure? = p.procedures.values ∧
      (itemsOf p l).filterMap Item.symbol? = p.symbols.values := by
  refine ⟨?_, ?_, ?_⟩ <;>
    simp [itemsOf, List.filterMap_map, Function.comp_def, Item.loop?, Item.procedure?, Item.symbol?]

theorem printsAny_program {p : Program} (h : p.Readable) :
    PrintsAny DerivesProgram p.listing.toList p := by
  obtain ⟨ls, hls, hsymbols⟩ := printsAny_values Symbol.listing
    fun e he => printsAny_symbol (h.symbols e he).2
  obtain ⟨ms, hms, hprocedures⟩ := printsAny_values Procedure.listing
    fun e he => printsAny_procedure (h.procedures e he).2
  obtain ⟨bounds, hlower, hupper, ns, hns, hloop⟩ := printsAny_loop h
  have hnewline : SpellsAny ['\n'] [] := spellsAny_blanks (by decide)
  have htext : p.listing.toList = (p.symbols.values.flatMap fun s => (s.listing ++ "\n").toList) ++
      ((p.procedures.values.flatMap fun f => (f.listing ++ "\n").toList) ++
        (p.header.toList ++ blockText p.body ++ ['\n'])) := by
    simp [Program.listing, String.toList_append, List.flatMap_map, toList_listBlock]
  rw [htext]
  refine ⟨_, hls.append (hms.append (hns.append hnewline)), fun ts hts => ?_⟩
  obtain ⟨us, vs, rfl, hus, hvs⟩ := List.map_eq_append_iff.1 hts
  obtain ⟨vs, ws, rfl, hvs, hws⟩ := List.map_eq_append_iff.1 hvs
  rw [List.append_nil] at hws
  obtain ⟨hloops, hprocs, hsyms⟩ := filterMap_itemsOf p ⟨p.counter, bounds, p.body⟩
  refine ⟨itemsOf p ⟨p.counter, bounds, p.body⟩, ?_, ⟨bounds, hloops, hlower.symm, hupper.symm⟩,
    ?_, ?_, ?_, ?_⟩
  · exact ((hsymbols us hus).map fun _ _ => .symbol).append
      (((hprocedures vs hvs).map fun _ _ => .procedure).append (.single (.loop (hloop ws hws))))
  · rw [hprocs]
    exact nodup_values fun e he => (h.procedures e he).1
  · rw [hsyms]
    exact nodup_values fun e he => (h.symbols e he).1
  · rw [hprocs, tableOf_values fun e he => (h.procedures e he).1]
  · rw [hsyms, tableOf_values fun e he => (h.symbols e he).1]

/-- **The listing of a readable program reads back as the program.** -/
theorem parse_listing {p : Program} (h : p.Readable) : parse p.listing = .ok p := by
  obtain ⟨ls, hls, hderives⟩ := printsAny_program h
  obtain ⟨ts, last, hscan, hts, hlast⟩ := exists_tokens_of_spells hls
  exact parse_of_derivesProgram hscan (next_cons (by rw [hlast]; rfl)) (hderives ts hts)

/-! ### What was read is readable -/

theorem Named.subset (h : Named ts) (hsubset : us ⊆ ts) : Named us :=
  fun t ht => h t (hsubset ht)

theorem readable_body {body : List Instr} (h : DerivesBlock ts body) (hnames : Named ts)
    (hfinite : ∀ e ∈ body.flatMap Instr.expressions, e.Finite) : ∀ i ∈ body, i.Readable := by
  intro i hi
  obtain ⟨left, us, right, rfl, -, hus, -⟩ := h
  obtain ⟨vs, hvs, hsubset⟩ := hus.exists_of_mem hi
  rw [named_cons, named_append] at hnames
  exact ⟨⟨vs, hvs, hnames.2.1.subset hsubset⟩,
    fun e he => hfinite e (List.mem_flatMap.2 ⟨i, hi, he⟩)⟩

theorem isName_of_afterComma {x : String} (h : AfterComma IsNameToken ts x) (hnames : Named ts) :
    IsName x := by
  obtain ⟨comma, us, rfl, -, t, rfl, ht, rfl⟩ := h
  exact (named_cons.1 (named_cons.1 hnames).2).1 ht

theorem isName_parameters {xs : List String}
    (h : ts = [] ∧ xs = [] ∨ Separated IsNameToken ts xs) (hnames : Named ts) :
    ∀ x ∈ xs, IsName x := by
  obtain ⟨-, rfl⟩ | ⟨us, vs, x, ys, rfl, rfl, ⟨t, rfl, ht, rfl⟩, hys⟩ := h
  · exact fun _ hx => absurd hx List.not_mem_nil
  · obtain ⟨hus, hvs⟩ := named_append.1 hnames
    refine List.forall_mem_cons.2 ⟨(named_cons.1 hus).1 ht, fun y hy => ?_⟩
    obtain ⟨ws, hws, hsubset⟩ := hys.exists_of_mem hy
    exact isName_of_afterComma hws (hvs.subset hsubset)

theorem readable_procedure {f : Procedure} (h : DerivesProcedure ts f) (hnames : Named ts)
    (hfinite : ∀ e ∈ f.expressions, e.Finite) : f.Readable := by
  obtain ⟨-, hf, -, hparameters, -, hbody⟩ := h
  rw [named_cons, named_cons, named_cons, named_append, named_cons] at hnames
  obtain ⟨-, hname, -, hus, -, hts⟩ := hnames
  exact ⟨hname hf, isName_parameters hparameters hus, readable_body hbody hts hfinite⟩

theorem readable_symbol {s : Symbol} (h : DerivesSymbol ts s) (hnames : Named ts) :
    s.Readable := by
  obtain ⟨-, hx, -, -, helement, -, -, -⟩ := h
  rw [named_cons, named_cons, named_cons, named_cons, named_cons] at hnames
  obtain ⟨-, hname, -, -, hname', -⟩ := hnames
  exact ⟨hname hx, hname' helement, rfl⟩

theorem readable_loop {l : LoopItem} (h : DerivesLoop ts l) (hnames : Named ts)
    (hbounds : ∀ b, l.bounds = some b → b.1.Finite ∧ b.2.Finite)
    (hfinite : ∀ e ∈ l.body.flatMap Instr.expressions, e.Finite) :
    IsName l.counter ∧ (∀ b, l.bounds = some b → b.1.Readable ∧ b.2.Readable) ∧
      ∀ i ∈ l.body, i.Readable := by
  cases h with
  | unbounded _ hi h =>
    rw [named_cons, named_cons] at hnames
    obtain ⟨-, hname, hts⟩ := hnames
    exact ⟨hname hi, fun b hb => (Option.some_ne_none b hb.symm).elim,
      readable_body h hts hfinite⟩
  | @bounded _ _ _ _ _ _ _ lower upper _ _ hi _ hlower _ hupper h =>
    rw [named_cons, named_cons, named_cons, named_append, named_cons, named_append] at hnames
    obtain ⟨-, hname, -, hus, -, hvs, hts⟩ := hnames
    obtain ⟨hfinitel, hfiniteu⟩ := hbounds (lower, upper) rfl
    refine ⟨hname hi, ?_, readable_body h hts hfinite⟩
    rintro b hb
    cases hb
    exact ⟨⟨⟨_, hlower, hus⟩, hfinitel⟩, ⟨_, hupper, hvs⟩, hfiniteu⟩

/-- **A program that was read is readable**, if its doubles are finite. -/
theorem readable_of_parse {text : String} {p : Program} (h : parse text = .ok p)
    (hfinite : p.Finite) : p.Readable := by
  obtain ⟨ts, rest, hscan, ⟨items, hitems, hmake⟩, -⟩ := derivesProgram_of_parse h
  have hnames : Named ts := by
    intro t ht
    have hmem : .ok t ∈ scan text := by
      rw [hscan]
      exact List.mem_append_left _ (List.mem_map_of_mem ht)
    exact isName_of_mem_scan hmem
  have hitem : ∀ x ∈ items, ∃ us, DerivesItem us x ∧ Named us := fun x hx => by
    obtain ⟨us, hus, hsubset⟩ := hitems.exists_of_mem hx
    exact ⟨us, hus, hnames.subset hsubset⟩
  have hprocedures : ∀ e ∈ p.procedures.entries, e.2.name = e.1 ∧ e.2.Readable := by
    intro e he
    have hvalue : e.2 ∈ p.procedures.values := List.mem_map_of_mem he
    rw [hmake.procedures] at he
    obtain ⟨hmem, hname⟩ := mem_entries_tableOf he
    obtain ⟨x, hx, hf⟩ := List.mem_filterMap.1 hmem
    obtain ⟨us, hus, hnamed⟩ := hitem x hx
    cases hus with
    | procedure h =>
      cases hf
      refine ⟨hname, readable_procedure h hnamed fun d hd => hfinite d ?_⟩
      exact List.mem_append_right _ (List.mem_flatMap.2 ⟨e.2, hvalue, hd⟩)
    | symbol _ | loop _ => cases hf
  have hsymbols : ∀ e ∈ p.symbols.entries, e.2.name = e.1 ∧ e.2.Readable := by
    intro e he
    rw [hmake.symbols] at he
    obtain ⟨hmem, hname⟩ := mem_entries_tableOf he
    obtain ⟨x, hx, hs⟩ := List.mem_filterMap.1 hmem
    obtain ⟨us, hus, hnamed⟩ := hitem x hx
    cases hus with
    | symbol h =>
      cases hs
      exact ⟨hname, readable_symbol h hnamed⟩
    | procedure _ | loop _ => cases hs
  obtain ⟨bounds, hloops, hlower, hupper⟩ := hmake.loop
  obtain ⟨x, hx, hl⟩ := List.mem_filterMap.1 (hloops ▸ List.mem_singleton.2 rfl)
  obtain ⟨us, hus, hnamed⟩ := hitem x hx
  cases hus with
  | symbol _ | procedure _ => cases hl
  | loop h =>
    cases hl
    have hbounds : ∀ b, bounds = some b → b.1.Finite ∧ b.2.Finite := by
      rintro b rfl
      exact ⟨hfinite _ (by simp [Program.expressions, hlower]),
        hfinite _ (by simp [Program.expressions, hupper])⟩
    have hbody : ∀ e ∈ p.body.flatMap Instr.expressions, e.Finite := fun e he =>
      hfinite e (List.mem_append_left _ (List.mem_append_right _ he))
    obtain ⟨hcounter, hreadable, hbody⟩ := readable_loop h hnamed hbounds hbody
    refine ⟨hcounter, ?_, hbody, hprocedures, hsymbols⟩
    rw [hlower, hupper]
    cases bounds with
    | none => exact Or.inl ⟨rfl, rfl⟩
    | some b => exact Or.inr ⟨b.1, b.2, rfl, rfl, hreadable b rfl⟩

end Listing

end ParLoop
