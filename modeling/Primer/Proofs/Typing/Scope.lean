import Mathlib.Data.List.Nodup
import Mathlib.Logic.Unique
import Primer.Proofs.Typing.Rules

/-!
Where names are distinct, look-ups find what is declared, and the types that are computed for
expressions and paths are those that the rules give them. Whether a path may be written can be asked of the
whole path or carried along it (`Scope.typeAlong_eq`).
-/

namespace Primer

/-- With the lemmas below this opens a successful check into its steps: what was found, what was required
and what was given in the end. -/
@[simp] theorem bind_eq_ok {x : Except ε α} {f : α → Except ε β} {b : β} :
    (x >>= f) = .ok b ↔ ∃ a, x = .ok a ∧ f a = .ok b := by
  cases x with
  | error e => exact ⟨nofun, nofun⟩
  | ok a => exact ⟨fun h => ⟨a, rfl, h⟩, fun ⟨_, rfl, h⟩ => h⟩

@[simp] theorem map_eq_ok {x : Except ε α} {f : α → β} {b : β} :
    f <$> x = .ok b ↔ ∃ a, x = .ok a ∧ f a = b := by
  cases x with
  | error e => exact ⟨nofun, nofun⟩
  | ok a => exact ⟨fun h => ⟨a, rfl, Except.ok.inj h⟩, fun ⟨_, rfl, h⟩ => congrArg _ h⟩

@[simp] theorem pure_eq_ok {a b : α} : (pure a : Except ε α) = .ok b ↔ a = b :=
  ⟨Except.ok.inj, congrArg _⟩

@[simp] theorem demand_eq_ok {a? : Option α} {i : Position} {cause : Diagnostic.Cause} {a : α} :
    demand a? i cause = .ok a ↔ a? = some a := by
  cases a? <;> simp [demand]

@[simp] theorem require_eq_ok {c : Bool} {i : Position} {cause : Diagnostic.Cause} {u : Unit} :
    require c i cause = .ok u ↔ c = true := by
  cases c <;> simp [require]

/-- A Boolean test of a result, passed only if there is a result. -/
theorem exists_ok_of_any {x : Except ε α} {P : α → Bool} (h : x.toOption.any P = true) :
    ∃ a, x = .ok a ∧ P a = true := by
  cases x with
  | error e => cases h
  | ok a => exact ⟨a, rfl, h⟩

/-- Look-ups take the first item of a name. Where no name comes twice, that is the item of this name. -/
theorem find?_eq_some_iff_of_nodup {l : List α} {f : α → String} (h : (l.map f).Nodup) {k : String}
    {a : α} : l.find? (f · == k) = some a ↔ a ∈ l ∧ f a = k := by
  constructor
  · intro hfind
    exact ⟨List.mem_of_find?_eq_some hfind, by simpa using List.find?_some hfind⟩
  · rintro ⟨ha, rfl⟩
    cases hfind : l.find? (f · == f a) with
    | none => simpa using List.find?_eq_none.1 hfind a ha
    | some b =>
      have hb : f b = f a := by simpa using List.find?_some hfind
      rw [List.inj_on_of_nodup_map h (List.mem_of_find?_eq_some hfind) ha hb]

theorem find?_eq_none_iff_of_name {l : List α} {f : α → String} {k : String} :
    l.find? (f · == k) = none ↔ ∀ a ∈ l, f a ≠ k := by
  simp

/-! ## Names -/

theorem Method.ofName?_eq_some_iff {name : String} {m : Method} :
    Method.ofName? name = some m ↔ m ∈ Method.all ∧ m.name = name :=
  find?_eq_some_iff_of_nodup (by decide)

theorem Ty.element?_eq_some_iff {t e : Ty} : t.element? = some e ↔ t = .vector e := by
  cases t <;> simp [element?]

theorem Ty.structureName?_eq_some_iff {t : Ty} {name : String} :
    t.structureName? = some name ↔ t = .named name := by
  cases t <;> simp [structureName?]

namespace Program

variable {p : Program} {name : String}

/-- One list of names for the whole program, so that a name stands for one declaration of one kind. -/
theorem map_name_declaredIdents (p : Program) : p.declaredIdents.map (·.name) =
    p.structures.map (·.name) ++ (p.constants.map (·.name) ++ (p.globals.map (·.name) ++
      p.routines.map (·.name))) := by
  simp only [declaredIdents, routines, List.map_append, List.map_map, List.append_assoc]
  rfl

/-- Functions are searched before procedures, as if the two were one list. -/
theorem routine?_eq_find? : p.routine? name = p.routines.find? (·.name == name) := by
  rw [routines, List.find?_append]
  change (p.function? name <|> p.procedure? name) = (p.function? name).or (p.procedure? name)
  cases p.function? name <;> rfl

namespace DistinctNames

theorem structures (h : p.DistinctNames) : (p.structures.map (·.name)).Nodup := by
  have hall := map_name_declaredIdents p ▸ h.declared
  exact (List.nodup_append.1 hall).1

theorem constants (h : p.DistinctNames) : (p.constants.map (·.name)).Nodup := by
  have hall := map_name_declaredIdents p ▸ h.declared
  exact (List.nodup_append.1 (List.nodup_append.1 hall).2.1).1

/-- The names behind those of structures and constants are distinct among themselves. -/
theorem globals_routines (h : p.DistinctNames) :
    (p.globals.map (·.name) ++ p.routines.map (·.name)).Nodup := by
  have hall := map_name_declaredIdents p ▸ h.declared
  exact (List.nodup_append.1 (List.nodup_append.1 hall).2.1).2.1

theorem globals (h : p.DistinctNames) : (p.globals.map (·.name)).Nodup :=
  (List.nodup_append.1 h.globals_routines).1

theorem routines (h : p.DistinctNames) : (p.routines.map (·.name)).Nodup :=
  (List.nodup_append.1 h.globals_routines).2.1

/-- No global has the name of a constant, so the order in which the two are searched does not matter. -/
theorem name_ne (h : p.DistinctNames) {c : Constant} (hc : c ∈ p.constants) {s : Symbol}
    (hs : s ∈ p.globals) : s.name ≠ c.name := by
  have hall := map_name_declaredIdents p ▸ h.declared
  have hapart := (List.nodup_append.1 (List.nodup_append.1 hall).2.1).2.2
  refine (hapart _ (List.mem_map_of_mem hc) _ ?_).symm
  exact List.mem_append_left _ (List.mem_map_of_mem hs)

theorem structure?_eq_some_iff (h : p.DistinctNames) {s : Structure} :
    p.structure? name = some s ↔ s ∈ p.structures ∧ s.name = name :=
  find?_eq_some_iff_of_nodup h.structures

theorem constant?_eq_some_iff (h : p.DistinctNames) {c : Constant} :
    p.constant? name = some c ↔ c ∈ p.constants ∧ c.name = name :=
  find?_eq_some_iff_of_nodup h.constants

theorem global?_eq_some_iff (h : p.DistinctNames) {s : Symbol} :
    p.global? name = some s ↔ s ∈ p.globals ∧ s.name = name :=
  find?_eq_some_iff_of_nodup h.globals

/-- Names of members need only be distinct within their structure. -/
theorem member?_eq_some_iff (h : p.DistinctNames) {s : Structure} (hs : s ∈ p.structures)
    {m : Symbol} : s.member? name = some m ↔ m ∈ s.members ∧ m.name = name :=
  find?_eq_some_iff_of_nodup (h.members s hs)

theorem routine?_eq_some_iff (h : p.DistinctNames) {r : Routine} :
    p.routine? name = some r ↔ r ∈ p.routines ∧ r.name = name := by
  rw [routine?_eq_find?]
  exact find?_eq_some_iff_of_nodup h.routines

end DistinctNames

end Program

namespace Routine

variable {r : Routine} {name : String}

theorem map_name_symbols (r : Routine) :
    r.symbols.map (·.name) = r.params.map (·.name) ++ r.locals.map (·.name) := by
  rw [symbols, List.map_append, List.map_map]
  rfl

variable (h : (r.symbols.map (·.name)).Nodup)
include h

theorem param?_eq_some_iff {p : Parameter} :
    r.param? name = some p ↔ p ∈ r.params ∧ p.name = name := by
  rw [map_name_symbols] at h
  exact find?_eq_some_iff_of_nodup (List.nodup_append.1 h).1

theorem local?_eq_some_iff {s : Symbol} :
    r.local? name = some s ↔ s ∈ r.locals ∧ s.name = name := by
  rw [map_name_symbols] at h
  exact find?_eq_some_iff_of_nodup (List.nodup_append.1 h).2.1

/-- A local is found behind the parameters only because none of them has its name. -/
theorem param?_eq_none_of_local {s : Symbol} (hs : s ∈ r.locals) : r.param? s.name = none := by
  rw [map_name_symbols] at h
  refine find?_eq_none_iff_of_name.2 fun p hp => ?_
  exact (List.nodup_append.1 h).2.2 _ (List.mem_map_of_mem hp) _ (List.mem_map_of_mem hs)

end Routine

namespace Scope

/-- The names that a place of a program can use are distinct. -/
structure Distinct (cx : Scope) : Prop where
  program : cx.program.DistinctNames
  symbols : ∀ r ∈ cx.routine, (r.symbols.map (·.name)).Nodup

variable {cx : Scope} {name : String}

/-- A name of the program is visible where no symbol of the routine has it. -/
theorem visible_iff : cx.Visible name ↔
    cx.routine.bind (·.param? name) = none ∧ cx.routine.bind (·.local? name) = none := by
  obtain ⟨p, routine⟩ := cx
  cases routine with
  | none => simp [Visible]
  | some r =>
    simp [Visible, Routine.symbols, Routine.param?, Routine.local?, Parameter.name, or_imp,
      forall_and]

/-- A parameter hides what a local of its name would be, and both hide what the program declares. -/
theorem lookup?_eq_some_iff {b : Binding} : cx.lookup? name = some b ↔
    (∃ p, cx.routine.bind (·.param? name) = some p ∧ .ofParameter p = b) ∨
    cx.routine.bind (·.param? name) = none ∧
      (∃ s, cx.routine.bind (·.local? name) = some s ∧ .ofLocal s = b) ∨
    cx.Visible name ∧
      ((∃ s, cx.program.global? name = some s ∧ .ofGlobal s = b) ∨
        cx.program.global? name = none ∧ ∃ c, cx.program.constant? name = some c ∧ .ofConstant c = b) := by
  rw [visible_iff, lookup?]
  cases cx.routine.bind (·.param? name) with
  | some p => simp
  | none =>
    cases cx.routine.bind (·.local? name) with
    | some s => simp
    | none => cases cx.program.global? name <;> simp

/-- With distinct names the order of the search does not show: a name is found to be what it is bound
to. -/
theorem lookup?_iff_binds (hcx : cx.Distinct) {b : Binding} :
    cx.lookup? name = some b ↔ cx.Binds name b := by
  rw [lookup?_eq_some_iff]
  constructor
  · rintro (⟨p, h, rfl⟩ | ⟨-, s, h, rfl⟩ | ⟨hv, ⟨s, h, rfl⟩ | ⟨-, c, h, rfl⟩⟩)
    · obtain ⟨r, hr, h⟩ := Option.bind_eq_some_iff.1 h
      obtain ⟨hp, rfl⟩ := (Routine.param?_eq_some_iff (hcx.symbols r hr)).1 h
      exact .ofParameter hr hp
    · obtain ⟨r, hr, h⟩ := Option.bind_eq_some_iff.1 h
      obtain ⟨hs, rfl⟩ := (Routine.local?_eq_some_iff (hcx.symbols r hr)).1 h
      exact .ofLocal hr hs
    · obtain ⟨hs, rfl⟩ := hcx.program.global?_eq_some_iff.1 h
      exact .ofGlobal hs hv
    · obtain ⟨hc, rfl⟩ := hcx.program.constant?_eq_some_iff.1 h
      exact .ofConstant hc hv
  · intro h
    cases h with
    | ofParameter hr hp =>
      have h := (Routine.param?_eq_some_iff (hcx.symbols _ hr)).2 ⟨hp, rfl⟩
      exact .inl ⟨_, Option.bind_eq_some_iff.2 ⟨_, hr, h⟩, rfl⟩
    | ofLocal hr hs =>
      have h := (Routine.local?_eq_some_iff (hcx.symbols _ hr)).2 ⟨hs, rfl⟩
      have hparam := Routine.param?_eq_none_of_local (hcx.symbols _ hr) hs
      refine .inr (.inl ⟨?_, _, Option.bind_eq_some_iff.2 ⟨_, hr, h⟩, rfl⟩)
      rw [hr, Option.bind_some, hparam]
    | ofGlobal hs hv =>
      have h := hcx.program.global?_eq_some_iff.2 ⟨hs, rfl⟩
      exact .inr (.inr ⟨hv, .inl ⟨_, h, rfl⟩⟩)
    | ofConstant hc hv =>
      have h := hcx.program.constant?_eq_some_iff.2 ⟨hc, rfl⟩
      have hglobal := find?_eq_none_iff_of_name.2 fun s hs => hcx.program.name_ne hc hs
      exact .inr (.inr ⟨hv, .inr ⟨hglobal, _, h, rfl⟩⟩)

end Scope

/-! ## Storage -/

theorem Binding.isWritable_iff {b : Binding} : b.isWritable = true ↔ b.Storage := by
  constructor
  · intro h
    cases b with
    | ofParameter p => exact .ofParameter (by simpa [isWritable, Mode.isWritable] using h)
    | ofLocal s => exact .ofLocal
    | ofGlobal s => exact .ofGlobal
    | ofConstant c => cases h
  · intro h
    cases h with
    | ofParameter h => simpa [isWritable, Mode.isWritable] using h
    | ofLocal | ofGlobal => rfl

namespace Scope

variable {cx : Scope}

theorem isWritable_var_iff (hcx : cx.Distinct) {x : Ident} :
    cx.isWritable (.var x) = true ↔ ∃ b, cx.Binds x.name b ∧ b.Storage := by
  rw [isWritable, Path.isStorage, Path.root, Bool.true_and]
  cases h : cx.lookup? x.name with
  | none =>
    refine ⟨nofun, fun ⟨b, hb, _⟩ => ?_⟩
    rw [(lookup?_iff_binds hcx).2 hb] at h
    cases h
  | some b =>
    rw [Option.map_some, Option.getD_some, Binding.isWritable_iff]
    refine ⟨fun hb => ⟨b, (lookup?_iff_binds hcx).1 h, hb⟩, fun ⟨c, hc, hstorage⟩ => ?_⟩
    rw [(lookup?_iff_binds hcx).2 hc] at h
    cases h
    exact hstorage

/-- The Boolean check of a path agrees with the rule, which goes along the path from its root. -/
theorem isWritable_iff (hcx : cx.Distinct) : ∀ {p : Path}, cx.isWritable p = true ↔ cx.Writable p
  | .var x => by
    rw [isWritable_var_iff hcx]
    exact ⟨fun ⟨_, hx, hb⟩ => .var hx hb, fun | .var hx hb => ⟨_, hx, hb⟩⟩
  | .index base i => by
    have ih := isWritable_iff hcx (p := base)
    exact ⟨fun h => .index (ih.1 h), fun | .index h => ih.2 h⟩
  | .member base x => by
    have ih := isWritable_iff hcx (p := base)
    exact ⟨fun h => .member (ih.1 h), fun | .member h => ih.2 h⟩
  | .call f args => ⟨nofun, nofun⟩
  | .method base m args => ⟨nofun, nofun⟩

/-- The type of a path, worked out from the root on together with a flag: whether the storage that the path
has come to may be written. The flag starts as that of the binding, and a call puts it down. -/
def typeAlong (cx : Scope) : Path → Except Diagnostic (Option Ty × Bool)
  | .var x => do
    let binding ← demand (cx.lookup? x.name) x.position (.undefinedIdentifier x.name)
    return (some binding.type, binding.isWritable)
  | .call f args => return (← cx.typeOfPath (.call f args), false)
  | .index base i => do
    let (type?, writable) ← cx.typeAlong base
    let type ← demand type? base.last.position (.noValue base.last.name)
    let element ← demand type.element? base.last.position (.notAVector type)
    requireIndex (i.position?.getD base.last.position) (← cx.typeOf i)
    return (some element, writable)
  | .member base x => do
    let (type?, writable) ← cx.typeAlong base
    let type ← demand type? base.last.position (.noValue base.last.name)
    return (some (← cx.memberType type x), writable)
  | .method base m args => do
    let (type?, writable) ← cx.typeAlong base
    let type ← demand type? base.last.position (.noValue base.last.name)
    let element ← demand type.element? m.position (.undefinedMethod type m.name)
    let method ← demand (Method.ofName? m.name) m.position (.undefinedMethod type m.name)
    require (method.params.length == args.length) m.position
      (.numberOfArguments method.name method.params.length args.length)
    cx.checkMethodArguments m element method.params args
    require (!method.mutates || writable) m.position (.notWritable m.name)
    return (method.result? element, false)

/-- At the end of a path the flag that has gone along with it says whether the path is writable. So a method
may ask that of its base, and no flag has to be kept. -/
theorem typeAlong_eq (cx : Scope) (q : Path) :
    cx.typeAlong q = (fun t? => (t?, cx.isWritable q)) <$> cx.typeOfPath q := by
  fun_induction typeAlong cx q with
  | case1 x =>
    rw [typeOfPath, isWritable, Path.isStorage, Path.root]
    cases cx.lookup? x.name <;> rfl
  | case2 f args =>
    rw [isWritable, Path.isStorage, map_eq_pure_bind]
    rfl
  | case3 base i ih =>
    have hflag : cx.isWritable (.index base i) = cx.isWritable base := rfl
    rw [typeOfPath, ih, hflag]
    simp
  | case4 base x ih =>
    have hflag : cx.isWritable (.member base x) = cx.isWritable base := rfl
    rw [typeOfPath, ih, hflag]
    simp
  | case5 base m args ih =>
    have hflag : cx.isWritable (.method base m args) = false := rfl
    rw [typeOfPath, ih, hflag]
    simp

/-! ## Types -/

variable {t : Ty} {t? : Option Ty}

section
attribute [local simp] typeOf typeOfPath

theorem typeOf_literal {v : Literal} : cx.typeOf (.literal v) = .ok t ↔ v.type = t := by
  cases v <;> simp [Literal.type]

theorem typeOf_path {p : Path} :
    cx.typeOf (.path p) = .ok t ↔ cx.typeOfPath p = .ok (some t) := by
  simp

theorem typeOf_not {i : Position} {e : Expr} :
    cx.typeOf (.not i e) = .ok t ↔ cx.typeOf e = .ok .boolean ∧ t = .boolean := by
  simp [Ty.negated?_eq_some_iff]

theorem typeOf_binary {i : Position} {o : Operator} {l r : Expr} :
    cx.typeOf (.binary i o l r) = .ok t ↔
      ∃ a, cx.typeOf l = .ok a ∧ ∃ b, cx.typeOf r = .ok b ∧ o.Gives a b t := by
  simp [Operator.result?_eq_some_iff]

theorem typeOfPath_var {x : Ident} :
    cx.typeOfPath (.var x) = .ok t? ↔ ∃ b, cx.lookup? x.name = some b ∧ some b.type = t? := by
  simp

/-- A call succeeds if the routine exists and takes the arguments; whether there is a value is left to the
caller. -/
theorem typeOfPath_call {f : Ident} {args : List Expr} :
    cx.typeOfPath (.call f args) = .ok t? ↔ ∃ r, cx.program.routine? f.name = some r ∧
      r.params.length = args.length ∧ cx.checkArguments f r.params args = .ok () ∧ r.result = t? := by
  simp [Unique.exists_iff]

theorem typeOfPath_index {base : Path} {i : Expr} :
    cx.typeOfPath (.index base i) = .ok t? ↔ ∃ e, cx.typeOfPath base = .ok (some (.vector e)) ∧
      (∃ k, cx.typeOf i = .ok k ∧ k.isIntegral = true) ∧ some e = t? := by
  simp [requireIndex, Ty.element?_eq_some_iff, ← and_assoc]

/-- Members are looked up in the structure that the type of the base names. -/
theorem typeOfPath_member {base : Path} {x : Ident} :
    cx.typeOfPath (.member base x) = .ok t? ↔ ∃ name, cx.typeOfPath base = .ok (some (.named name)) ∧
      ∃ s, cx.program.structure? name = some s ∧ ∃ m, s.member? x.name = some m ∧ some m.type = t? := by
  simp [memberType, Ty.structureName?_eq_some_iff]

/-- The base of a method that changes it has to be writable. All other methods may be called on any
vector. -/
theorem typeOfPath_method {base : Path} {x : Ident} {args : List Expr} :
    cx.typeOfPath (.method base x args) = .ok t? ↔
      ∃ e, cx.typeOfPath base = .ok (some (.vector e)) ∧ ∃ m, Method.ofName? x.name = some m ∧
        m.params.length = args.length ∧ cx.checkMethodArguments x e m.params args = .ok () ∧
        (m.mutates = true → cx.isWritable base = true) ∧ m.result? e = t? := by
  simp [Unique.exists_iff, Ty.element?_eq_some_iff, imp_iff_not_or]

end

/-- Where a parameter is not written, any expression of a type that it accepts may be given. -/
theorem checkArguments_value {f : Ident} {p : Parameter} (hp : p.mode = .input)
    {ps : List Parameter} {e : Expr} {es : List Expr} :
    cx.checkArguments f (p :: ps) (e :: es) = .ok () ↔ ∃ t, cx.typeOf e = .ok t ∧
      p.symbol.type.Accepts t ∧ cx.checkArguments f ps es = .ok () := by
  have hmode : p.mode.isWritable = false := by rw [hp]; rfl
  cases e <;> simp [checkArguments, hmode, requireAccepted, Ty.accepts_iff]

/-- Where a parameter may be written, the argument has to be a path that may be written too, and of the very
type of the parameter: nothing is converted. -/
theorem checkArguments_storage {f : Ident} {p : Parameter} (hp : p.mode ≠ .input)
    {ps : List Parameter} {e : Expr} {es : List Expr} :
    cx.checkArguments f (p :: ps) (e :: es) = .ok () ↔
      (∃ q, e = .path q ∧ cx.isWritable q = true) ∧ cx.typeOf e = .ok p.symbol.type ∧
        cx.checkArguments f ps es = .ok () := by
  have hmode : p.mode.isWritable = true := bne_iff_ne.2 hp
  cases e <;> simp [checkArguments, hmode, typeOf_path]

theorem checkMethodArguments_index {m : Ident} {element : Ty} {ps : List Method.Param} {e : Expr}
    {es : List Expr} : cx.checkMethodArguments m element (.index :: ps) (e :: es) = .ok () ↔
      ∃ t, cx.typeOf e = .ok t ∧ t.isIntegral = true ∧
        cx.checkMethodArguments m element ps es = .ok () := by
  simp [checkMethodArguments, requireIndex]

theorem checkMethodArguments_element {m : Ident} {element : Ty} {ps : List Method.Param} {e : Expr}
    {es : List Expr} : cx.checkMethodArguments m element (.element :: ps) (e :: es) = .ok () ↔
      ∃ t, cx.typeOf e = .ok t ∧ element.Accepts t ∧
        cx.checkMethodArguments m element ps es = .ok () := by
  simp [checkMethodArguments, requireAccepted, Ty.accepts_iff]

/-- The rule in the form of `checkArguments_value`. -/
theorem takes_value {p : Parameter} (hp : p.mode = .input) {ps : List Parameter} {e : Expr}
    {es : List Expr} : cx.Takes (p :: ps) (e :: es) ↔
      ∃ t, cx.HasType e t ∧ p.symbol.type.Accepts t ∧ cx.Takes ps es := by
  constructor
  · rintro (_ | ⟨-, he, ht, h⟩ | hne)
    · exact ⟨_, he, ht, h⟩
    · exact absurd hp hne
  · rintro ⟨t, he, ht, h⟩
    exact .value hp he ht h

/-- The rule in the form of `checkArguments_storage`. -/
theorem takes_storage {p : Parameter} (hp : p.mode ≠ .input) {ps : List Parameter} {e : Expr}
    {es : List Expr} : cx.Takes (p :: ps) (e :: es) ↔
      (∃ q, e = .path q ∧ cx.Writable q) ∧ cx.HasType e p.symbol.type ∧ cx.Takes ps es := by
  constructor
  · rintro (_ | heq | ⟨-, hw, hq, h⟩)
    · exact absurd heq hp
    · exact ⟨⟨_, rfl, hw⟩, hq, h⟩
  · rintro ⟨⟨q, rfl, hw⟩, hq, h⟩
    exact .storage hp hw hq h

mutual
/-- Types are worked out as the rules give them. The four statements follow the recursion of the syntax
together, since arguments and indices are expressions again. -/
theorem typeOf_iff (hcx : cx.Distinct) :
    ∀ {e : Expr} {t : Ty}, cx.typeOf e = .ok t ↔ cx.HasType e t
  | .literal v, t => by
    rw [typeOf_literal]
    exact ⟨fun h => h ▸ .literal, fun | .literal => rfl⟩
  | .path p, t => by
    rw [typeOf_path, typeOfPath_iff hcx]
    exact ⟨.path, fun | .path h => h⟩
  | .not i e, t => by
    rw [typeOf_not, typeOf_iff hcx]
    exact ⟨fun ⟨h, ht⟩ => ht ▸ .not h, fun | .not h => ⟨h, rfl⟩⟩
  | .binary i o l r, t => by
    rw [typeOf_binary]
    constructor
    · rintro ⟨a, hl, b, hr, ho⟩
      exact .binary ((typeOf_iff hcx).1 hl) ((typeOf_iff hcx).1 hr) ho
    · rintro (_ | _ | _ | ⟨hl, hr, ho⟩)
      exact ⟨_, (typeOf_iff hcx).2 hl, _, (typeOf_iff hcx).2 hr, ho⟩

/-- The same for paths, which may also be calls of procedures and so have no type. -/
theorem typeOfPath_iff (hcx : cx.Distinct) :
    ∀ {p : Path} {t? : Option Ty}, cx.typeOfPath p = .ok t? ↔ cx.Yields p t?
  | .var x, t? => by
    rw [typeOfPath_var]
    constructor
    · rintro ⟨b, hb, rfl⟩
      exact .var ((lookup?_iff_binds hcx).1 hb)
    · rintro (hx | _)
      exact ⟨_, (lookup?_iff_binds hcx).2 hx, rfl⟩
  | .call f args, t? => by
    rw [typeOfPath_call]
    constructor
    · rintro ⟨r, hr, hlength, hargs, rfl⟩
      obtain ⟨hr, hf⟩ := hcx.program.routine?_eq_some_iff.1 hr
      exact .call hr hf ((takes_iff hcx).1 ⟨hlength, hargs⟩)
    · rintro (_ | ⟨hr, hf, hargs⟩)
      obtain ⟨hlength, hargs⟩ := (takes_iff hcx (f := f)).2 hargs
      exact ⟨_, hcx.program.routine?_eq_some_iff.2 ⟨hr, hf⟩, hlength, hargs, rfl⟩
  | .index base i, t? => by
    rw [typeOfPath_index]
    constructor
    · rintro ⟨e, h, ⟨k, hi, hk⟩, rfl⟩
      exact .index ((typeOfPath_iff hcx).1 h) ((typeOf_iff hcx).1 hi) hk
    · rintro (_ | _ | ⟨h, hi, hk⟩)
      exact ⟨_, (typeOfPath_iff hcx).2 h, ⟨_, (typeOf_iff hcx).2 hi, hk⟩, rfl⟩
  | .member base x, t? => by
    rw [typeOfPath_member]
    constructor
    · rintro ⟨name, h, s, hfind, m, hm, rfl⟩
      obtain ⟨hs, rfl⟩ := hcx.program.structure?_eq_some_iff.1 hfind
      obtain ⟨hm, hx⟩ := (hcx.program.member?_eq_some_iff hs).1 hm
      exact .member ((typeOfPath_iff hcx).1 h) hs hm hx
    · rintro (_ | _ | _ | ⟨h, hs, hm, hx⟩)
      exact ⟨_, (typeOfPath_iff hcx).2 h, _, hcx.program.structure?_eq_some_iff.2 ⟨hs, rfl⟩, _,
        (hcx.program.member?_eq_some_iff hs).2 ⟨hm, hx⟩, rfl⟩
  | .method base x args, t? => by
    rw [typeOfPath_method]
    constructor
    · rintro ⟨e, h, m, hm, hlength, hargs, hw, rfl⟩
      obtain ⟨hm, hx⟩ := Method.ofName?_eq_some_iff.1 hm
      exact .method ((typeOfPath_iff hcx).1 h) hm hx ((methodTakes_iff hcx).1 ⟨hlength, hargs⟩)
        fun hmutates => (isWritable_iff hcx).1 (hw hmutates)
    · rintro (_ | _ | _ | _ | ⟨h, hm, hx, hargs, hw⟩)
      obtain ⟨hlength, hargs⟩ := (methodTakes_iff hcx (m := x)).2 hargs
      exact ⟨_, (typeOfPath_iff hcx).2 h, _, Method.ofName?_eq_some_iff.2 ⟨hm, hx⟩, hlength, hargs,
        fun hmutates => (isWritable_iff hcx).2 (hw hmutates), rfl⟩

/-- The number of arguments is checked apart from the arguments, and both are in the rule. -/
theorem takes_iff (hcx : cx.Distinct) {f : Ident} : ∀ {ps : List Parameter} {es : List Expr},
    ps.length = es.length ∧ cx.checkArguments f ps es = .ok () ↔ cx.Takes ps es
  | [], [] => ⟨fun _ => .nil, fun _ => ⟨rfl, by simp [checkArguments]⟩⟩
  | [], _ :: _ => ⟨nofun, nofun⟩
  | _ :: _, [] => ⟨nofun, nofun⟩
  | p :: ps, e :: es => by
    rw [List.length_cons, List.length_cons, Nat.add_right_cancel_iff]
    by_cases hp : p.mode = .input
    · rw [checkArguments_value hp, takes_value hp]
      constructor
      · rintro ⟨hlength, t, he, ht, h⟩
        exact ⟨t, (typeOf_iff hcx).1 he, ht, (takes_iff hcx).1 ⟨hlength, h⟩⟩
      · rintro ⟨t, he, ht, h⟩
        obtain ⟨hlength, h⟩ := (takes_iff hcx).2 h
        exact ⟨hlength, t, (typeOf_iff hcx).2 he, ht, h⟩
    · rw [checkArguments_storage hp, takes_storage hp]
      constructor
      · rintro ⟨hlength, ⟨q, hq, hw⟩, he, h⟩
        exact ⟨⟨q, hq, (isWritable_iff hcx).1 hw⟩, (typeOf_iff hcx).1 he,
          (takes_iff hcx).1 ⟨hlength, h⟩⟩
      · rintro ⟨⟨q, hq, hw⟩, he, h⟩
        obtain ⟨hlength, h⟩ := (takes_iff hcx).2 h
        exact ⟨hlength, ⟨q, hq, (isWritable_iff hcx).2 hw⟩, (typeOf_iff hcx).2 he, h⟩

theorem methodTakes_iff (hcx : cx.Distinct) {m : Ident} {element : Ty} :
    ∀ {ps : List Method.Param} {es : List Expr},
      ps.length = es.length ∧ cx.checkMethodArguments m element ps es = .ok () ↔
        cx.MethodTakes element ps es
  | [], [] => ⟨fun _ => .nil, fun _ => ⟨rfl, by simp [checkMethodArguments]⟩⟩
  | [], _ :: _ => ⟨nofun, nofun⟩
  | _ :: _, [] => ⟨nofun, nofun⟩
  | .index :: ps, e :: es => by
    rw [List.length_cons, List.length_cons, Nat.add_right_cancel_iff, checkMethodArguments_index]
    constructor
    · rintro ⟨hlength, t, he, ht, h⟩
      exact .index ((typeOf_iff hcx).1 he) ht ((methodTakes_iff hcx).1 ⟨hlength, h⟩)
    · rintro (_ | ⟨he, ht, h⟩)
      obtain ⟨hlength, h⟩ := (methodTakes_iff hcx).2 h
      exact ⟨hlength, _, (typeOf_iff hcx).2 he, ht, h⟩
  | .element :: ps, e :: es => by
    rw [List.length_cons, List.length_cons, Nat.add_right_cancel_iff, checkMethodArguments_element]
    constructor
    · rintro ⟨hlength, t, he, ht, h⟩
      exact .element ((typeOf_iff hcx).1 he) ht ((methodTakes_iff hcx).1 ⟨hlength, h⟩)
    · rintro (_ | _ | ⟨he, ht, h⟩)
      obtain ⟨hlength, h⟩ := (methodTakes_iff hcx).2 h
      exact ⟨hlength, _, (typeOf_iff hcx).2 he, ht, h⟩
end

end Scope

end Primer
