import Primer.Proofs.Syntax.Items
import Primer.Proofs.Syntax.Legal
import Primer.Proofs.Typing.Check

/-!
Where typing fails. In a program that knows all its types, what fails for an expression does so at an item
of the expression, and never for want of a structure (`settles_typeOf`).
-/

namespace Primer

/-- The places of the items. -/
def places (xs : List Item) : List Position := xs.map (·.position)

theorem mem_places {x : Item} {xs : List Item} (h : x ∈ xs) : x.position ∈ places xs :=
  List.mem_map_of_mem h

/-- More items have more places. -/
theorem places_subset {xs ys : List Item} (h : xs ⊆ ys) : places xs ⊆ places ys := List.map_subset _ h

theorem Path.root_mem_places (q : Path) : q.root.position ∈ places q.items := mem_places q.root_mem_items

theorem Path.last_mem_places (q : Path) : q.last.position ∈ places q.items := mem_places q.last_mem_items

/-- The place of an expression, if it has one, is that of an item in it. Literals have none. -/
theorem Expr.mem_places_of_position? {e : Expr} {i : Position} (h : e.position? = some i) :
    i ∈ places e.items := by
  cases e with
  | literal v => cases h
  | path q =>
    cases h
    exact q.root_mem_places
  | not j e | binary j o l r =>
    cases h
    simp [places, Expr.items, Item.position]

/-- The place that stands for an expression is its own or the one that takes it. -/
theorem Expr.getD_position?_mem {e : Expr} {xs : List Item} {fallback : Position}
    (hxs : e.items ⊆ xs) (h : fallback ∈ places xs) : e.position?.getD fallback ∈ places xs := by
  cases hi : e.position? with
  | none => exact h
  | some i => exact places_subset hxs (mem_places_of_position? hi)

/-- The diagnostic stands at one of the items, and not for want of a structure. -/
structure Diagnostic.Within (d : Diagnostic) (xs : List Item) : Prop where
  place : d.position ∈ places xs
  cause : ∀ name, d.cause ≠ .undefinedStructure name

theorem Diagnostic.Within.mono {d : Diagnostic} {xs ys : List Item} (h : d.Within xs) (hxs : xs ⊆ ys) :
    d.Within ys := ⟨places_subset hxs h.place, h.cause⟩

/-- A value has the property, and a diagnostic is within the items. -/
structure Settles (x : Except Diagnostic α) (xs : List Item) (P : α → Prop) : Prop where
  value : ∀ a, x = .ok a → P a
  failure : ∀ d, x = .error d → d.Within xs

namespace Settles

variable {x : Except Diagnostic α} {f : α → Except Diagnostic β} {xs ys : List Item}
variable {P : α → Prop} {Q : β → Prop} {i : Position} {cause : Diagnostic.Cause}

theorem pure {a : α} (h : P a) : Settles (pure a) xs P where
  value b hb := by
    cases hb
    exact h
  failure d hd := by cases hd

/-- One check after another, if the second settles whatever the first may give. -/
theorem bind (hx : Settles x xs P) (hf : ∀ a, P a → Settles (f a) xs Q) : Settles (x >>= f) xs Q := by
  cases x with
  | error d =>
    refine ⟨fun b hb => ?_, fun e he => ?_⟩
    · cases hb
    · cases he
      exact hx.failure d rfl
  | ok a => exact hf a (hx.value a rfl)

theorem mono (h : Settles x xs P) (hxs : xs ⊆ ys) : Settles x ys P where
  value := h.value
  failure d hd := (h.failure d hd).mono hxs

/-- What is looked up may be missing, for any cause but that of an unknown structure. -/
theorem demand {a? : Option α} (hi : i ∈ places xs) (ha : ∀ a, a? = some a → P a)
    (hc : ∀ name, cause ≠ .undefinedStructure name := by simp) :
    Settles (demand a? i cause) xs P := by
  cases a? with
  | some a => exact pure (ha a rfl)
  | none =>
    refine ⟨fun a h => ?_, fun d hd => ?_⟩
    · cases h
    · cases hd
      exact ⟨hi, hc⟩

/-- A condition may fail, with the same restriction on the cause. -/
theorem require {c : Bool} (hi : i ∈ places xs)
    (hc : ∀ name, cause ≠ .undefinedStructure name := by simp) :
    Settles (require c i cause) xs fun _ => True := by
  cases c with
  | true => exact pure trivial
  | false =>
    refine ⟨fun _ _ => trivial, fun d hd => ?_⟩
    cases hd
    exact ⟨hi, hc⟩

end Settles

/-! ## Known types -/

namespace Program

variable {p : Program}

/-- The program knows every type that it writes. -/
structure Closed (p : Program) : Prop where
  members : ∀ s ∈ p.structures, ∀ m ∈ s.members, p.Knows m.type
  constants : ∀ c ∈ p.constants, p.Knows c.symbol.type
  globals : ∀ s ∈ p.globals, p.Knows s.type
  symbols : ∀ r ∈ p.routines, ∀ s ∈ r.symbols, p.Knows s.type
  results : ∀ r ∈ p.routines, ∀ t ∈ r.result, p.Knows t

/-- Legal types refer to declared structures. -/
theorem knows_of_legal {t : Ty} (h : t.Legal p.structureNames) : p.Knows t := by
  induction t with
  | vector t ih => exact .vector (ih h)
  | named name =>
    obtain ⟨s, hs, rfl⟩ := List.mem_map.1 h.2
    exact .named hs
  | _ => exact .scalar rfl

/-- In a legal program every type that is written refers to structures of the program. -/
theorem Legal.closed (h : p.Legal) : p.Closed where
  members s hs m hm := by
    obtain ⟨before, after, hsplit⟩ := List.append_of_mem hs
    have hk : before.map (·.name) ⊆ p.structureNames := by
      rw [structureNames, hsplit, List.map_append]
      exact List.subset_append_left _ _
    exact knows_of_legal (((h.structures before s after hsplit).mono hk).members m hm).2
  constants c hc := knows_of_legal (h.constants c hc).symbol.2
  globals s hs := knows_of_legal (h.globals s hs).2
  symbols r hr s hs := by
    rcases List.mem_append.1 hs with hs | hs
    · obtain ⟨param, hparam, rfl⟩ := List.mem_map.1 hs
      exact knows_of_legal ((h.routine hr).params param hparam).2
    · exact knows_of_legal ((h.routine hr).locals s hs).2
  results r hr t ht := knows_of_legal ((h.routine hr).result t ht)

theorem Knows.element {t e : Ty} (h : p.Knows t) (he : t.element? = some e) : p.Knows e := by
  rw [Ty.element?_eq_some_iff] at he
  subst he
  cases h with
  | scalar h => cases h
  | vector h => exact h

/-- So the structure is found when a member is looked up in it. -/
theorem Knows.exists_structure {t : Ty} {name : String} (h : p.Knows t)
    (hname : t.structureName? = some name) : ∃ s, p.structure? name = some s := by
  rw [Ty.structureName?_eq_some_iff] at hname
  subst hname
  cases h with
  | scalar h => cases h
  | named hs =>
    rw [← Option.isSome_iff_exists, structure?, List.find?_isSome]
    exact ⟨_, hs, by simp⟩

/-- Operators give scalar types, which refer to no structure. -/
theorem knows_result {o : Operator} {a b t : Ty} (h : o.result? a b = some t) : p.Knows t := by
  have hgives := Operator.result?_eq_some_iff.1 h
  cases hgives with
  | arithmetic _ h | remainder h => cases h <;> exact .scalar rfl
  | concatenation | ordering | equality | logic => exact .scalar rfl

end Program

namespace Scope

/-- The program at whose place names are looked up knows its types, and the routine belongs to it. -/
structure Closed (cx : Scope) : Prop where
  program : cx.program.Closed
  routine : ∀ r, cx.routine = some r → r ∈ cx.program.routines

end Scope

theorem Program.Closed.scope_none {p : Program} (h : p.Closed) : Scope.Closed ⟨p, none⟩ where
  program := h
  routine r hr := by cases hr

theorem Program.Closed.scope_some {p : Program} (h : p.Closed) {r : Routine} (hr : r ∈ p.routines) :
    Scope.Closed ⟨p, some r⟩ where
  program := h
  routine s hs := by
    cases hs
    exact hr

namespace Scope

variable {cx : Scope}

/-- Whatever a name stands for has a known type. -/
theorem Closed.lookup (hcx : cx.Closed) {name : String} {b : Binding} (h : cx.lookup? name = some b) :
    cx.program.Knows b.type := by
  rw [lookup?_eq_some_iff] at h
  rcases h with ⟨q, h, rfl⟩ | ⟨-, s, h, rfl⟩ | ⟨-, ⟨s, h, rfl⟩ | ⟨-, c, h, rfl⟩⟩
  · obtain ⟨r, hr, h⟩ := Option.bind_eq_some_iff.1 h
    have hq := List.mem_map_of_mem (f := (·.symbol)) (List.mem_of_find?_eq_some h)
    exact hcx.program.symbols r (hcx.routine r hr) _ (List.mem_append_left _ hq)
  · obtain ⟨r, hr, h⟩ := Option.bind_eq_some_iff.1 h
    have hs := List.mem_of_find?_eq_some h
    exact hcx.program.symbols r (hcx.routine r hr) s (List.mem_append_right _ hs)
  · exact hcx.program.globals s (List.mem_of_find?_eq_some h)
  · exact hcx.program.constants c (List.mem_of_find?_eq_some h)

theorem Closed.result (hcx : cx.Closed) {name : String} {r : Routine} (h : cx.program.routine? name = some r) :
    ∀ t, r.result = some t → cx.program.Knows t := by
  rw [Program.routine?_eq_find?] at h
  exact hcx.program.results r (List.mem_of_find?_eq_some h)

/-! ## Expressions -/

/-- A member may be missing, but not the structure. -/
theorem settles_memberType (hcx : cx.Closed) {t : Ty} (ht : cx.program.Knows t) {x : Ident} {xs : List Item}
    (hx : x.position ∈ places xs) : Settles (cx.memberType t x) xs cx.program.Knows := by
  refine Settles.bind (.demand hx fun _ h => h) fun name hname => ?_
  -- a known type names a structure that is declared, so the look-up succeeds
  obtain ⟨s, hs⟩ := ht.exists_structure hname
  rw [hs]
  refine Settles.bind (P := (· = s)) (Settles.pure rfl) fun s' hs' => ?_
  rw [hs']
  refine Settles.bind (.demand hx fun _ h => h) fun m hm => Settles.pure ?_
  exact hcx.program.members s (List.mem_of_find?_eq_some hs) m (List.mem_of_find?_eq_some hm)

mutual

/-- What fails for an expression fails at an item of it. The four statements go along the recursion of the
syntax; each passes the items of its parts on. -/
theorem settles_typeOf (hcx : cx.Closed) : ∀ e : Expr, Settles (cx.typeOf e) e.items cx.program.Knows
  | .literal v => by
    cases v <;> (rw [typeOf]; exact Settles.pure (.scalar rfl))
  | .path q => by
    rw [typeOf, Expr.items]
    refine (settles_typeOfPath hcx q).bind fun t? ht => ?_
    exact .demand q.root_mem_places ht
  | .not i e => by
    rw [typeOf, Expr.items]
    refine ((settles_typeOf hcx e).mono (List.subset_cons_self _ _)).bind fun t _ => ?_
    refine .demand (mem_places List.mem_cons_self) fun u hu => ?_
    rw [Ty.negated?_eq_some_iff] at hu
    rw [hu.2]
    exact .scalar rfl
  | .binary i o l r => by
    rw [typeOf, Expr.items]
    refine ((settles_typeOf hcx l).mono (List.subset_append_left _ _)).bind fun a _ => ?_
    refine ((settles_typeOf hcx r).mono ?_).bind fun b _ => ?_
    · exact fun x hx => List.mem_append_right _ (List.mem_cons_of_mem _ hx)
    refine .demand (mem_places (x := .operator o i) (by simp)) fun t ht => ?_
    exact Program.knows_result ht

theorem settles_typeOfPath (hcx : cx.Closed) : ∀ q : Path,
    Settles (cx.typeOfPath q) q.items fun t? => ∀ t, t? = some t → cx.program.Knows t
  | .var x => by
    rw [typeOfPath, Path.items]
    refine Settles.bind (.demand (mem_places List.mem_cons_self) fun b hb => hcx.lookup hb) ?_
    intro b hb
    refine Settles.pure fun t ht => ?_
    cases ht
    exact hb
  | .call f args => by
    rw [typeOfPath, Path.items]
    have hf : f.position ∈ places (.name f :: Expr.itemsAll args) := mem_places List.mem_cons_self
    refine Settles.bind (.demand hf fun _ h => h) fun r hr => ?_
    refine Settles.bind (.require hf) fun _ _ => ?_
    refine (settles_checkArguments hcx f r.params args).bind fun _ _ => Settles.pure ?_
    exact hcx.result hr
  | .index base i => by
    rw [typeOfPath, Path.items]
    have hlast : base.last.position ∈ places (base.items ++ i.items) :=
      places_subset (List.subset_append_left _ _) base.last_mem_places
    refine ((settles_typeOfPath hcx base).mono (List.subset_append_left _ _)).bind fun t? ht => ?_
    refine Settles.bind (.demand hlast ht) fun t ht => ?_
    refine Settles.bind (.demand hlast fun e he => ht.element he) fun e he => ?_
    refine ((settles_typeOf hcx i).mono (List.subset_append_right _ _)).bind fun _ _ => ?_
    refine Settles.bind (.require ?_) fun _ _ => Settles.pure fun t ht => ?_
    · exact Expr.getD_position?_mem (List.subset_append_right _ _) hlast
    · cases ht
      exact he
  | .member base x => by
    rw [typeOfPath, Path.items]
    have hlast : base.last.position ∈ places (base.items ++ [.name x]) :=
      places_subset (List.subset_append_left _ _) base.last_mem_places
    refine ((settles_typeOfPath hcx base).mono (List.subset_append_left _ _)).bind fun t? ht => ?_
    refine Settles.bind (.demand hlast ht) fun t ht => ?_
    refine (settles_memberType hcx ht (mem_places (x := .name x) (by simp))).bind fun u hu => ?_
    refine Settles.pure fun t ht => ?_
    cases ht
    exact hu
  | .method base m args => by
    rw [typeOfPath, Path.items]
    have hm : m.position ∈ places (base.items ++ .name m :: Expr.itemsAll args) :=
      mem_places (x := .name m) (by simp)
    have hlast : base.last.position ∈ places (base.items ++ .name m :: Expr.itemsAll args) :=
      places_subset (List.subset_append_left _ _) base.last_mem_places
    refine ((settles_typeOfPath hcx base).mono (List.subset_append_left _ _)).bind fun t? ht => ?_
    refine Settles.bind (.demand hlast ht) fun t ht => ?_
    refine Settles.bind (.demand hm fun e he => ht.element he) fun e he => ?_
    refine Settles.bind (.demand hm fun _ h => h) fun method _ => ?_
    refine Settles.bind (.require hm) fun _ _ => ?_
    refine ((settles_checkMethodArguments hcx m e method.params args).mono
      (List.subset_append_right _ _)).bind fun _ _ => ?_
    refine Settles.bind (.require hm) fun _ _ => Settles.pure fun t ht => ?_
    rw [Method.result?] at ht
    split at ht <;> cases ht
    · exact he
    · exact .scalar rfl

theorem settles_checkArguments (hcx : cx.Closed) (f : Ident) :
    ∀ (ps : List Parameter) (es : List Expr),
    Settles (cx.checkArguments f ps es) (.name f :: Expr.itemsAll es) fun _ => True
  | p :: ps, e :: es => by
    have hf : f.position ∈ places (.name f :: Expr.itemsAll (e :: es)) := mem_places List.mem_cons_self
    have he : e.items ⊆ .name f :: Expr.itemsAll (e :: es) :=
      List.subset_cons_of_subset _ (List.subset_append_left _ _)
    have hrest := (settles_checkArguments hcx f ps es).mono
      (List.cons_subset_cons (.name f) (List.subset_append_right e.items _))
    unfold checkArguments
    dsimp only
    -- what the routine may write is checked as storage, all else as a value
    split
    · cases e with
      | path q =>
        have hroot := places_subset he q.root_mem_places
        refine Settles.bind (.require hroot) fun _ _ => ?_
        refine ((settles_typeOfPath hcx q).mono he).bind fun t? ht => ?_
        refine Settles.bind (.demand hroot ht) fun t _ => ?_
        exact Settles.bind (.require hroot) fun _ _ => hrest
      | literal | not | binary =>
        exact Settles.bind (.require (Expr.getD_position?_mem he hf)) fun _ _ => hrest
    · refine ((settles_typeOf hcx e).mono he).bind fun t _ => ?_
      exact Settles.bind (.require (Expr.getD_position?_mem he hf)) fun _ _ => hrest
  | [], _ | _ :: _, [] => by
    unfold checkArguments
    exact Settles.pure trivial

theorem settles_checkMethodArguments (hcx : cx.Closed) (m : Ident) (element : Ty) :
    ∀ (ps : List Method.Param) (es : List Expr),
    Settles (cx.checkMethodArguments m element ps es) (.name m :: Expr.itemsAll es) fun _ => True
  | p :: ps, e :: es => by
    have hm : m.position ∈ places (.name m :: Expr.itemsAll (e :: es)) := mem_places List.mem_cons_self
    have he : e.items ⊆ .name m :: Expr.itemsAll (e :: es) :=
      List.subset_cons_of_subset _ (List.subset_append_left _ _)
    have hrest := (settles_checkMethodArguments hcx m element ps es).mono
      (List.cons_subset_cons (.name m) (List.subset_append_right e.items _))
    unfold checkMethodArguments
    refine ((settles_typeOf hcx e).mono he).bind fun t _ => ?_
    cases p with
    | index | element =>
      exact Settles.bind (.require (Expr.getD_position?_mem he hm)) fun _ _ => hrest
  | [], _ | _ :: _, [] => by
    unfold checkMethodArguments
    exact Settles.pure trivial

end

end Scope

end Primer
