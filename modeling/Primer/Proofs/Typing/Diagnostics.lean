import Primer.Proofs.Places.Program
import Primer.Proofs.Typing.Failures

/-!
Where diagnostics stand. In a program that was read, each stands at an item, and what an instruction gives
rise to stands at an item of that instruction; only a literal that stands as an instruction is reported at
the end of the text (`check_place_iff`). None is about a structure that is not declared
(`wellFormed_of_parse`).
-/

namespace Primer

/-- What is reported of a literal that stands as an instruction. A literal has no place, and the end of the
text is given for it. -/
def Diagnostic.stray : Diagnostic := ⟨default, .notAnInstruction⟩

/-- Each diagnostic is within the items, or due to a literal among the instructions. -/
def Located (ds : List Diagnostic) (xs : List Item) (is : List Instruction) : Prop :=
  ∀ d ∈ ds, d.Within xs ∨ d = .stray ∧ ∃ v, .evaluate (.literal v) ∈ is

namespace Located

variable {ds es : List Diagnostic} {xs ys : List Item} {is js : List Instruction}

theorem nil : Located [] xs is := by
  intro d hd
  cases hd

theorem append (h : Located ds xs is) (h' : Located es xs is) : Located (ds ++ es) xs is := by
  intro d hd
  rcases List.mem_append.1 hd with hd | hd
  · exact h d hd
  · exact h' d hd

theorem flatMap {l : List α} {f : α → List Diagnostic} (h : ∀ a ∈ l, Located (f a) xs is) :
    Located (l.flatMap f) xs is := by
  intro d hd
  obtain ⟨a, ha, hd⟩ := List.mem_flatMap.1 hd
  exact h a ha d hd

theorem mono (h : Located ds xs is) (hxs : xs ⊆ ys) (his : is ⊆ js) : Located ds ys js := by
  intro d hd
  rcases h d hd with hd | ⟨hd, v, hv⟩
  · exact .inl (hd.mono hxs)
  · exact .inr ⟨hd, v, his hv⟩

theorem reported {x : Except Diagnostic α} (h : Settles x xs fun _ => True) :
    Located (reported x) xs is := by
  cases x with
  | ok a => exact nil
  | error d =>
    intro e he
    cases List.mem_singleton.1 he
    exact .inl (h.failure d rfl)

theorem single {i : Position} {cause : Diagnostic.Cause} (hi : i ∈ places xs)
    (hc : ∀ name, cause ≠ .undefinedStructure name := by simp) : Located [⟨i, cause⟩] xs is := by
  intro e he
  cases List.mem_singleton.1 he
  exact .inl ⟨hi, hc⟩

theorem place_iff (h : Located ds xs is) (hxs : ∀ x ∈ xs, x.position ≠ default) :
    ∀ d ∈ ds, d.position ∈ places xs ↔ d ≠ .stray := by
  intro d hd
  constructor
  · rintro hplace rfl
    obtain ⟨x, hx, hend⟩ := List.mem_map.1 hplace
    exact hxs x hx hend
  · intro hne
    rcases h d hd with hwithin | ⟨hstray, -⟩
    · exact hwithin.place
    · exact absurd hstray hne

/-- Where no item stands at the end of the text, what does stand there is due to a literal. -/
theorem exists_literal (h : Located ds xs is) (hxs : ∀ x ∈ xs, x.position ≠ default)
    (hstray : .stray ∈ ds) : ∃ v, .evaluate (.literal v) ∈ is := by
  rcases h _ hstray with hwithin | ⟨-, hv⟩
  · exact absurd rfl ((h.place_iff hxs _ hstray).1 hwithin.place)
  · exact hv

end Located

theorem Settles.discard {x : Except Diagnostic α} {xs : List Item} {P : α → Prop}
    (h : Settles x xs P) : Settles (discard x) xs fun _ => True :=
  h.bind fun _ _ => Settles.pure trivial

namespace Scope

variable {cx : Scope} {xs : List Item} {is : List Instruction}

/-! ## Instructions -/

/-- A condition on the type of an expression fails at the place that stands for the expression. -/
theorem settles_typeOf_require (hcx : cx.Closed) {e : Expr} {i : Position} {c : Ty → Bool}
    {cause : Ty → Diagnostic.Cause} (he : e.items ⊆ xs) (hi : i ∈ places xs)
    (hc : ∀ t name, cause t ≠ .undefinedStructure name := by simp) :
    Settles (cx.typeOf e >>= fun t => require (c t) (e.position?.getD i) (cause t)) xs
      fun _ => True :=
  ((settles_typeOf hcx e).mono he).bind fun t _ => .require (Expr.getD_position?_mem he hi) (hc t)

theorem settles_expectType (hcx : cx.Closed) {e : Expr} {t : Ty} {i : Position} (he : e.items ⊆ xs)
    (hi : i ∈ places xs) : Settles (cx.expectType e t i) xs fun _ => True := by
  refine ((settles_typeOf hcx e).mono he).bind fun t _ => ?_
  exact Settles.bind (.require (Expr.getD_position?_mem he hi)) fun _ _ => Settles.pure trivial

theorem settles_writableType (hcx : cx.Closed) {q : Path} (hq : q.items ⊆ xs) :
    Settles (cx.writableType q) xs fun _ => True := by
  have hroot := places_subset hq q.root_mem_places
  refine ((settles_typeOfPath hcx q).mono hq).bind fun t? ht => ?_
  refine Settles.bind (.demand hroot ht) fun t _ => ?_
  exact Settles.bind (.require hroot) fun _ _ => Settles.pure trivial

theorem located_checkCondition (hcx : cx.Closed) {c : Expr} {i : Position} (hc : c.items ⊆ xs)
    (hi : i ∈ places xs) : Located (cx.checkCondition c i) xs is :=
  .reported (settles_typeOf_require hcx hc hi)

theorem located_checkBound (hcx : cx.Closed) {e : Expr} {i : Position} (he : e.items ⊆ xs)
    (hi : i ∈ places xs) : Located (cx.checkBound e i) xs is :=
  .reported (settles_typeOf_require hcx he hi)

theorem located_checkCounter {x : Ident} (hx : x.position ∈ places xs) :
    Located (cx.checkCounter x) xs is := by
  unfold checkCounter
  split
  · split
    · exact .nil
    · exact .single hx
  · exact .single hx

theorem located_evaluate (hcx : cx.Closed) (e : Expr) :
    Located (cx.checkInstruction (.evaluate e)) e.items [.evaluate e] := by
  rw [checkInstruction]
  cases e with
  | literal v =>
    -- the one failure for which there is no place to fall back to
    intro d hd
    cases List.mem_singleton.1 hd
    exact .inr ⟨rfl, v, List.mem_singleton_self _⟩
  | path q =>
    refine .reported ?_
    dsimp only [Expr.path?]
    split
    · exact (settles_typeOfPath hcx q).discard
    · exact .require q.root_mem_places
  | not i e | binary i o l r =>
    exact .reported (.require (Expr.mem_places_of_position? rfl))

mutual

theorem located_checkInstruction (hcx : cx.Closed) :
    ∀ i : Instruction, Located (cx.checkInstruction i) i.items (i :: i.inner)
  | .print i es => by
    rw [checkInstruction, Instruction.items]
    refine .flatMap fun e he => .reported ?_
    have hitems : e.items ⊆ .keyword "print" i :: es.flatMap Expr.items :=
      fun x hx => List.mem_cons_of_mem _ (List.mem_flatMap_of_mem he hx)
    exact settles_typeOf_require hcx hitems (mem_places List.mem_cons_self)
  | .read q => by
    rw [checkInstruction, Instruction.items]
    refine .reported ((settles_writableType hcx (List.Subset.refl _)).bind fun t _ => ?_)
    exact .require q.root_mem_places
  | .result i e => by
    rw [checkInstruction, Instruction.items]
    refine .reported ?_
    have hi : i ∈ places (.keyword "return" i :: e.items) := mem_places List.mem_cons_self
    split
    · exact (settles_expectType hcx (List.subset_cons_self _ _) hi).discard
    · exact .require hi
  | .evaluate e => located_evaluate hcx e
  | .assign i q e => by
    rw [checkInstruction, Instruction.items]
    have hi : i ∈ places (.assignment q.root i :: (q.items ++ e.items)) :=
      mem_places List.mem_cons_self
    refine .reported ((settles_writableType hcx ?_).bind fun t _ => settles_expectType hcx ?_ hi)
    · grind
    · grind
  | .branch i c body next => by
    rw [checkInstruction, Instruction.items, Instruction.inner]
    have hi : i ∈ places (.keyword "if" i ::
        (c.items ++ Instruction.itemsAll body ++ next.items)) := mem_places List.mem_cons_self
    refine .append (.append (located_checkCondition hcx ?_ hi) ?_) ?_
    · grind
    · exact (located_checkBlock hcx body).mono (by grind) (by grind)
    · exact (located_checkAlternatives hcx next).mono (by grind) (by grind)
  | .whileLoop i c body => by
    rw [checkInstruction, Instruction.items, Instruction.inner]
    have hi : i ∈ places (.keyword "while" i :: (c.items ++ Instruction.itemsAll body)) :=
      mem_places List.mem_cons_self
    refine .append (located_checkCondition hcx ?_ hi) ?_
    · grind
    · exact (located_checkBlock hcx body).mono (by grind) (by grind)
  | .untilLoop i body c => by
    rw [checkInstruction, Instruction.items, Instruction.inner]
    have hi : i ∈ places (.keyword "loop" i :: (Instruction.itemsAll body ++ c.items)) :=
      mem_places List.mem_cons_self
    refine .append ?_ (located_checkCondition hcx ?_ hi)
    · exact (located_checkBlock hcx body).mono (by grind) (by grind)
    · grind
  | .forLoop i x first last body => by
    rw [checkInstruction, Instruction.items, Instruction.inner]
    have hi : i ∈ places (.keyword "for" i :: .name x ::
        (first.items ++ last.items ++ Instruction.itemsAll body)) := mem_places List.mem_cons_self
    refine .append (.append (.append (located_checkCounter ?_) (located_checkBound hcx ?_ hi))
      (located_checkBound hcx ?_ hi)) ?_
    · exact mem_places (x := .name x) (by simp)
    · grind
    · grind
    · exact (located_checkBlock hcx body).mono (by grind) (by grind)
  | .guarded i c j => by
    rw [checkInstruction, Instruction.items, Instruction.inner]
    have hi : i ∈ places (.keyword "on" i :: (c.items ++ j.items)) := mem_places List.mem_cons_self
    refine .append (located_checkCondition hcx ?_ hi) ?_
    · grind
    · exact (located_checkInstruction hcx j).mono (by grind) (by grind)

theorem located_checkAlternatives (hcx : cx.Closed) :
    ∀ next : Alternatives, Located (cx.checkAlternatives next) next.items next.inner
  | .none => .nil
  | .otherwise body => located_checkBlock hcx body
  | .elsif i c body next => by
    rw [checkAlternatives, Alternatives.items, Alternatives.inner]
    have hi : i ∈ places (.keyword "elsif" i ::
        (c.items ++ Instruction.itemsAll body ++ next.items)) := mem_places List.mem_cons_self
    refine .append (.append (located_checkCondition hcx ?_ hi) ?_) ?_
    · grind
    · exact (located_checkBlock hcx body).mono (by grind) (by grind)
    · exact (located_checkAlternatives hcx next).mono (by grind) (by grind)

theorem located_checkBlock (hcx : cx.Closed) : ∀ is : List Instruction,
    Located (cx.checkBlock is) (Instruction.itemsAll is) (Instruction.within is)
  | [] => .nil
  | i :: is => by
    rw [checkBlock, Instruction.itemsAll, Instruction.within]
    refine .append ?_ ?_
    · exact (located_checkInstruction hcx i).mono (by grind) (by grind)
    · exact (located_checkBlock hcx is).mono (by grind) (by grind)

end

/-! What is found in an instruction is found in all that it stands in, and so are its items. -/

mutual

theorem inner_subset (cx : Scope) : ∀ i : Instruction, ∀ j ∈ i.inner,
    cx.checkInstruction j ⊆ cx.checkInstruction i ∧ j.items ⊆ i.items
  | .branch i c body next, j, hj => by
    rw [checkInstruction, Instruction.items]
    rcases List.mem_append.1 hj with hj | hj
    · have h := within_subset cx body j hj
      grind
    · have h := alternatives_subset cx next j hj
      grind
  | .whileLoop i c body, j, hj | .untilLoop i body c, j, hj | .forLoop i x first last body, j, hj => by
    have h := within_subset cx body j hj
    rw [checkInstruction, Instruction.items]
    grind
  | .guarded i c k, j, hj => by
    rw [checkInstruction, Instruction.items]
    rcases List.mem_cons.1 hj with rfl | hj
    · grind
    · have h := inner_subset cx k j hj
      grind
  | .print _ _, j, hj | .read _, j, hj | .result _ _, j, hj | .evaluate _, j, hj
  | .assign _ _ _, j, hj => by cases hj

theorem alternatives_subset (cx : Scope) : ∀ next : Alternatives, ∀ j ∈ next.inner,
    cx.checkInstruction j ⊆ cx.checkAlternatives next ∧ j.items ⊆ next.items
  | .none, j, hj => by cases hj
  | .otherwise body, j, hj => within_subset cx body j hj
  | .elsif i c body next, j, hj => by
    rw [checkAlternatives, Alternatives.items]
    rcases List.mem_append.1 hj with hj | hj
    · have h := within_subset cx body j hj
      grind
    · have h := alternatives_subset cx next j hj
      grind

theorem within_subset (cx : Scope) : ∀ is : List Instruction, ∀ j ∈ Instruction.within is,
    cx.checkInstruction j ⊆ cx.checkBlock is ∧ j.items ⊆ Instruction.itemsAll is
  | [], j, hj => by cases hj
  | i :: is, j, hj => by
    rw [checkBlock, Instruction.itemsAll]
    rcases List.mem_append.1 hj with hj | hj
    · rcases List.mem_cons.1 hj with rfl | hj
      · grind
      · have h := inner_subset cx i j hj
        grind
    · have h := within_subset cx is j hj
      grind

end

/-- A literal among the instructions of an instruction is reported. -/
theorem stray_mem_checkInstruction {i : Instruction} {v : Literal}
    (h : .evaluate (.literal v) ∈ i :: i.inner) : .stray ∈ cx.checkInstruction i := by
  have hv : .stray ∈ cx.checkInstruction (.evaluate (.literal v)) := by
    rw [checkInstruction]
    exact List.mem_singleton_self _
  rcases List.mem_cons.1 h with rfl | h
  · exact hv
  · exact (inner_subset cx i _ h).1 hv

end Scope

theorem repeated_subset (seen : List String) (xs : List Ident) : repeated seen xs ⊆ xs := by
  induction xs generalizing seen with
  | nil => exact List.Subset.refl _
  | cons x xs ih =>
    rw [repeated]
    split
    · exact List.cons_subset_cons x (ih seen)
    · exact List.subset_cons_of_subset x (ih _)

theorem located_checkUnique {idents : List Ident} {xs : List Item} {is : List Instruction}
    (h : ∀ x ∈ idents, .name x ∈ xs) : Located (checkUnique idents) xs is := by
  intro d hd
  obtain ⟨x, hx, rfl⟩ := List.mem_map.1 hd
  exact .inl ⟨mem_places (h x (repeated_subset _ _ hx)), by simp⟩

theorem settles_checkConstantExpr {earlier : List Constant} (e : Expr) :
    Settles (checkConstantExpr earlier e) e.items fun _ => True := by
  fun_induction checkConstantExpr earlier e with
  | case1 v => exact Settles.pure trivial
  | case2 x => exact .require (mem_places (Path.root_mem_items (.var x)))
  | case3 q => exact .require q.root_mem_places
  | case4 i e ih => exact ih.mono (List.subset_cons_self _ _)
  | case5 i o l r ihl ihr =>
    rw [Expr.items]
    exact (ihl.mono (by grind)).bind fun _ _ => ihr.mono (by grind)

namespace Program

variable {p : Program} {xs : List Item} {is : List Instruction}

theorem located_checkSymbol {s : Symbol} (h : p.Knows s.type) : Located (p.checkSymbol s) xs is := by
  rw [checkSymbol_iff.2 h]
  exact .nil

theorem located_checkStructure (h : p.Closed) {s : Structure} (hs : s ∈ p.structures) :
    Located (p.checkStructure s) s.items is := by
  refine .append (located_checkUnique fun x hx => ?_) (.flatMap fun m hm => ?_)
  · simp only [List.mem_map] at hx
    obtain ⟨m, hm, rfl⟩ := hx
    exact List.mem_cons_of_mem _ (List.mem_flatMap_of_mem hm (List.mem_singleton_self _))
  · exact located_checkSymbol (h.members s hs m hm)

theorem located_checkConstants (h : p.Closed) {cs : List Constant} (hcs : cs ⊆ p.constants)
    (earlier : List Constant) :
    Located (p.checkConstants earlier cs) (cs.flatMap Constant.items) is := by
  have hcx := h.scope_none
  induction cs generalizing earlier with
  | nil => exact .nil
  | cons c cs ih =>
    rw [checkConstants, List.flatMap_cons, Constant.items]
    have hc : c.value.items ⊆ c.symbol.items ++ c.value.items ++ cs.flatMap Constant.items := by grind
    have hsymbol : c.symbol.ident.position ∈
        places (c.symbol.items ++ c.value.items ++ cs.flatMap Constant.items) :=
      mem_places (x := .name c.symbol.ident) (by simp [Symbol.items])
    refine .append (.append ?_ (.reported ?_)) ?_
    · exact located_checkSymbol (h.constants c (hcs List.mem_cons_self))
    · refine ((settles_checkConstantExpr c.value).mono hc).bind fun _ _ => ?_
      exact Scope.settles_expectType hcx hc hsymbol
    · exact (ih (List.subset_of_cons_subset hcs) _).mono (by grind) (List.Subset.refl _)

theorem located_checkShadowing {s : Symbol} (hs : .name s.ident ∈ xs) :
    Located (p.checkShadowing s) xs is := by
  unfold checkShadowing
  split
  · exact .single (mem_places hs)
  · exact .nil

theorem name_mem_items {r : Routine} {s : Symbol} (hs : s ∈ r.symbols) : .name s.ident ∈ r.items := by
  simp only [Routine.symbols, List.mem_append, List.mem_map] at hs
  simp only [Routine.items, Symbol.items, List.mem_cons, List.mem_append, List.mem_flatMap]
  rcases hs with ⟨param, hparam, rfl⟩ | hs
  · exact .inr (.inl (.inl ⟨param, hparam, .inl rfl⟩))
  · exact .inr (.inl (.inr ⟨s, hs, .inl rfl⟩))

theorem located_checkRoutine (h : p.Closed) {r : Routine} (hr : r ∈ p.routines) :
    Located (p.checkRoutine r) r.items r.instructions := by
  have hresult : (r.result.map (p.checkType r.ident.position)).getD [] = [] := by
    cases ht : r.result with
    | none => rfl
    | some t => exact checkType_iff.2 (h.results r hr t ht)
  have hbody := Scope.located_checkBlock (h.scope_some hr) r.body
  rw [Instruction.itemsAll_eq_flatMap] at hbody
  unfold checkRoutine
  change Located (checkUnique (r.symbols.map (·.ident)) ++ r.symbols.flatMap _ ++ _ ++ _) _ _
  rw [hresult, List.append_nil]
  refine .append (.append (located_checkUnique fun x hx => ?_) (.flatMap fun s hs => ?_)) ?_
  · simp only [List.mem_map] at hx
    obtain ⟨s, hs, rfl⟩ := hx
    exact name_mem_items hs
  · exact .append (located_checkShadowing (name_mem_items hs)) (located_checkSymbol (h.symbols r hr s hs))
  · exact hbody.mono (by rw [Routine.items]; grind) (List.Subset.refl _)

theorem mem_declarations_of_routine {r : Routine} (hr : r ∈ p.routines) :
    .ofRoutine r ∈ p.declarations := by
  simp [declarations, hr]

theorem ident_mem_items : .name p.ident ∈ p.items := List.mem_cons_self

theorem located_checkEntry : Located p.checkEntry p.items is := by
  unfold checkEntry
  split
  case h_1 => exact .single (mem_places ident_mem_items)
  case h_2 entry hentry =>
    have hmem : entry ∈ p.routines := List.mem_append_left _ (List.mem_of_find?_eq_some hentry)
    split
    · exact .nil
    · exact .single (mem_places (items_subset (mem_declarations_of_routine hmem) List.mem_cons_self))

theorem located_checkName : Located p.checkName p.items is := by
  unfold checkName
  split
  · exact .single (mem_places ident_mem_items)
  · exact .nil

theorem declaredIdents_mem_items {x : Ident} (hx : x ∈ p.declaredIdents) : .name x ∈ p.items := by
  simp only [declaredIdents, List.mem_append, List.mem_map] at hx
  rcases hx with (((⟨s, hs, rfl⟩ | ⟨c, hc, rfl⟩) | ⟨s, hs, rfl⟩) | ⟨r, hr, rfl⟩) | ⟨r, hr, rfl⟩
  · exact items_subset (d := .ofStructure s) (by simp [declarations, hs]) List.mem_cons_self
  · exact items_subset (d := .ofConstant c) (by simp [declarations, hc]) List.mem_cons_self
  · exact items_subset (d := .ofGlobal s) (by simp [declarations, hs]) List.mem_cons_self
  · have hr' := mem_declarations_of_routine (List.mem_append_left _ hr)
    exact items_subset hr' List.mem_cons_self
  · have hr' := mem_declarations_of_routine (List.mem_append_right _ hr)
    exact items_subset hr' List.mem_cons_self

/-- In a program that knows its types, checking finds what stands at the items of the program, and the
literals that stand as instructions. -/
theorem Closed.located_check (h : p.Closed) :
    Located p.check p.items (p.routines.flatMap Routine.instructions) := by
  rw [check]
  refine .append (.append (.append (.append (.append (.append located_checkName ?_) ?_) ?_) ?_) ?_)
    located_checkEntry
  · exact located_checkUnique fun x hx => declaredIdents_mem_items hx
  · refine .flatMap fun s hs => (located_checkStructure h hs).mono ?_ (List.nil_subset _)
    exact items_subset (d := .ofStructure s) (by simp [declarations, hs])
  · refine (located_checkConstants h (List.Subset.refl _) []).mono ?_ (List.nil_subset _)
    intro x hx
    obtain ⟨c, hc, hx⟩ := List.mem_flatMap.1 hx
    exact items_subset (d := .ofConstant c) (by simp [declarations, hc]) hx
  · exact .flatMap fun s hs => located_checkSymbol (h.globals s hs)
  · refine .flatMap fun r hr => (located_checkRoutine h hr).mono ?_ ?_
    · exact items_subset (mem_declarations_of_routine hr)
    · exact fun i hi => List.mem_flatMap_of_mem hr hi

/-! ## Programs that are read -/

variable {text : String}

theorem checkInstruction_subset {r : Routine} (hr : r ∈ p.routines) {i : Instruction}
    (hi : i ∈ r.instructions) :
    Scope.checkInstruction ⟨p, some r⟩ i ⊆ p.check ∧ i.items ⊆ p.items := by
  obtain ⟨hcheck, hitems⟩ := Scope.within_subset ⟨p, some r⟩ r.body i hi
  have hroutine : p.checkRoutine r ⊆ p.check := by
    intro d hd
    rw [check, List.mem_append, List.mem_append]
    exact .inl (.inr (List.mem_flatMap_of_mem hr hd))
  have hblock : Scope.checkBlock ⟨p, some r⟩ r.body ⊆ p.checkRoutine r := List.subset_append_right _ _
  have hbody : Instruction.itemsAll r.body ⊆ r.items := by
    rw [Instruction.itemsAll_eq_flatMap, Routine.items]
    grind
  constructor
  · exact fun d hd => hroutine (hblock (hcheck hd))
  · exact fun x hx => items_subset (mem_declarations_of_routine hr) (hbody (hitems hx))

/-- A diagnostic of a program that was read stands at an item of the program, and one that an instruction
gives rise to at an item of that instruction, unless it is that of a literal that stands as an instruction.
That one stands at no item, and it is given exactly if there is such a literal. -/
theorem check_place_iff (h : Program.parse text = .ok p) :
    (∀ d ∈ p.check, d.position ∈ places p.items ↔ d ≠ .stray) ∧
    (.stray ∈ p.check ↔ ∃ r ∈ p.routines, ∃ v, .evaluate (.literal v) ∈ r.instructions) ∧
    ∀ r ∈ p.routines, ∀ i ∈ r.instructions,
      (∀ d ∈ Scope.checkInstruction ⟨p, some r⟩ i,
        d ∈ p.check ∧ (d.position ∈ places i.items ↔ d ≠ .stray)) ∧
      (.stray ∈ Scope.checkInstruction ⟨p, some r⟩ i ↔
        ∃ v, .evaluate (.literal v) ∈ i :: i.inner) := by
  have hclosed := (legal_of_parse h).closed
  have hplaces : ∀ x ∈ p.items, x.position ≠ default :=
    fun x hx => (standsIn_of_parse h x hx).position_ne_default
  refine ⟨hclosed.located_check.place_iff hplaces, ⟨fun hstray => ?_, ?_⟩, fun r hr i hi => ?_⟩
  · obtain ⟨v, hv⟩ := hclosed.located_check.exists_literal hplaces hstray
    obtain ⟨r, hr, hv⟩ := List.mem_flatMap.1 hv
    exact ⟨r, hr, v, hv⟩
  · rintro ⟨r, hr, v, hv⟩
    exact (checkInstruction_subset hr hv).1 (Scope.stray_mem_checkInstruction List.mem_cons_self)
  · obtain ⟨hcheck, hitems⟩ := checkInstruction_subset hr hi
    have hlocated := Scope.located_checkInstruction (hclosed.scope_some hr) i
    have hends : ∀ x ∈ i.items, x.position ≠ default := fun x hx => hplaces x (hitems hx)
    refine ⟨fun d hd => ⟨hcheck hd, hlocated.place_iff hends d hd⟩, ?_, ?_⟩
    · exact hlocated.exists_literal hends
    · rintro ⟨v, hv⟩
      exact Scope.stray_mem_checkInstruction hv

/-- Problems with literals, each of which is reported where the instruction stands or its target. -/
def literalsText : String :=
  "program t\nprocedure q(out n : real)\non 1 do n=\"a\"\nreturn n[0]\nend"

theorem check_place_iff_literals : ∃ p, Program.parse literalsText = .ok p ∧
    p.check.map (·.position.toEnd) = [29, 21, 15, 57] ∧ ∀ d ∈ p.check, d.position ∈ places p.items := by
  have hany : (Program.parse literalsText).toOption.any
      (·.check.map (·.position.toEnd) == [29, 21, 15, 57]) = true := by decide +kernel
  obtain ⟨p, hp, hcheck⟩ := exists_ok_of_any hany
  rw [beq_iff_eq] at hcheck
  refine ⟨p, hp, hcheck, fun d hd => ((check_place_iff hp).1 d hd).2 ?_⟩
  rintro rfl
  have hend := List.mem_map_of_mem (f := (·.position.toEnd)) hd
  rw [hcheck] at hend
  exact absurd hend (by decide)

/-- A literal stands as an instruction, and the only item there is the one that guards it. -/
def strayText : String :=
  "program t\nfunction t(in args : vector of string) : integer\non true do 42\nend"

/-- The problem is reported at the end of the text. -/
theorem check_place_stray : ∃ p, Program.parse strayText = .ok p ∧
    ∃ d ∈ p.check, d.position ∉ places p.items := by
  have hany : (Program.parse strayText).toOption.any
      (fun p => p.check.any fun d => !(places p.items).contains d.position) = true := by decide +kernel
  obtain ⟨p, hp, hcheck⟩ := exists_ok_of_any hany
  simp only [List.any_eq_true, Bool.not_eq_true', ← Bool.not_eq_true,
    List.contains_iff_mem] at hcheck
  exact ⟨p, hp, hcheck⟩

/-- A program that is read is legal, it is made up of declarations in the order of the text, each of which
refers only to structures that are declared before it, and checking misses none of them. -/
theorem wellFormed_of_parse (h : Program.parse text = .ok p) :
    p.Legal ∧
    (∃ ds, p = ofDeclarations p.ident ds ∧
      Descending (.name p.ident :: ds.flatMap Declaration.items) ∧ InOrder ds) ∧
    ∀ d ∈ p.check, ∀ name, d.cause ≠ .undefinedStructure name := by
  have hlegal := legal_of_parse h
  obtain ⟨ds, hp, horder, rest, halong⟩ := exists_declarations h
  refine ⟨hlegal, ⟨ds, hp, halong.descending, horder⟩, fun d hd => ?_⟩
  rcases hlegal.closed.located_check d hd with hwithin | ⟨rfl, -⟩
  · exact hwithin.cause
  · simp [Diagnostic.stray]

/-- A program that uses a structure, and gives rise to a diagnostic. -/
def membersText : String :=
  "program t\nstructure s\nx : real\nend\nglobal g : vector of s\n" ++
    "procedure q(in i : integer)\nprint g[i].x\nend"

theorem wellFormed_of_parse_members : ∃ p, Program.parse membersText = .ok p ∧
    p.structureNames = ["s"] ∧ p.check.length = 1 ∧ p.Legal ∧
    (∃ ds, p = ofDeclarations p.ident ds ∧
      Descending (.name p.ident :: ds.flatMap Declaration.items) ∧ InOrder ds) ∧
    ∀ d ∈ p.check, ∀ name, d.cause ≠ .undefinedStructure name := by
  have hany : (Program.parse membersText).toOption.any
      (fun p => p.structureNames == ["s"] && p.check.length == 1) = true := by decide +kernel
  obtain ⟨p, hp, hnames⟩ := exists_ok_of_any hany
  rw [Bool.and_eq_true, beq_iff_eq, beq_iff_eq] at hnames
  exact ⟨p, hp, hnames.1, hnames.2, wellFormed_of_parse hp⟩

end Program

end Primer
