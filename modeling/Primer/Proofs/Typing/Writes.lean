import Primer.Proofs.Typing.Check
import Primer.Proofs.Typing.Nodes

/-!
The places that a body writes. There are five kinds: what is assigned, what is read, the counter of a
loop, an argument that a call hands back, and a vector that a method changes. The last two stand within
expressions. In a program without problems they all are storage.
-/

namespace Primer

/-- The methods that change the vector they are called on. -/
def changingMethods : List String := ["push", "insert", "remove", "pop", "clear"]

/-- The arguments for those parameters that the routine may write. -/
def handedBack (params : List Parameter) (args : List Expr) : List Expr :=
  (params.zip args).filterMap fun (p, e) => if p.mode = .input then none else some e

theorem handedBack_input {p : Parameter} (hp : p.mode = .input) (ps : List Parameter) (e : Expr)
    (es : List Expr) : handedBack (p :: ps) (e :: es) = handedBack ps es := by
  simp [handedBack, hp]

theorem handedBack_output {p : Parameter} (hp : p.mode ≠ .input) (ps : List Parameter) (e : Expr)
    (es : List Expr) : handedBack (p :: ps) (e :: es) = e :: handedBack ps es := by
  simp [handedBack, hp]

/-- What the calls along a path write: not those in its arguments and indices. -/
def Path.writes (p : Program) : Path → List Expr
  | .var _ => []
  | .call f args => ((p.routine? f.name).map fun r => handedBack r.params args).getD []
  | .index base _ | .member base _ => base.writes p
  | .method base m _ => (if m.name ∈ changingMethods then [.path base] else []) ++ base.writes p

/-- What the expression writes, apart from what the expressions within it do. -/
def Expr.writes (p : Program) : Expr → List Expr
  | .path q => q.writes p
  | .literal _ | .not _ _ | .binary _ _ _ _ => []

/-- What the instruction writes, apart from what the instructions and expressions within it do. -/
def Instruction.writes (p : Program) : Instruction → List Expr
  | .read target | .assign _ target _ => .path target :: target.writes p
  | .evaluate e => e.writes p
  | .forLoop _ counter _ _ _ => [.path (.var counter)]
  | .print _ _ | .result _ _ | .branch _ _ _ _ | .whileLoop _ _ _ | .untilLoop _ _ _
  | .guarded _ _ _ => []

/-- All places that a routine of the program writes, in its instructions and in the expressions of
these, at any depth. -/
def Routine.writes (p : Program) (r : Routine) : List Expr :=
  r.instructions.flatMap (·.writes p) ++ r.nodes.flatMap (·.writes p)

theorem mutates_of_mem_changingMethods {m : Method} (hm : m ∈ Method.all)
    (h : m.name ∈ changingMethods) : m.mutates = true := by
  revert m
  decide

namespace Scope

variable {cx : Scope}

/-- The expression denotes storage that may be written. -/
def Reaches (cx : Scope) (e : Expr) : Prop := ∃ q, e = .path q ∧ cx.Writable q

theorem Writable.isStorage : ∀ {q : Path}, cx.Writable q → q.isStorage = true
  | .var _, _ => rfl
  | .index _ _, .index h | .member _ _, .member h => h.isStorage

theorem Writable.exists_root : ∀ {q : Path}, cx.Writable q → ∃ b, cx.Binds q.root.name b ∧ b.Storage
  | .var _, .var hx hb => ⟨_, hx, hb⟩
  | .index _ _, .index h | .member _ _, .member h => h.exists_root

theorem Takes.reaches {ps : List Parameter} {es : List Expr} (h : cx.Takes ps es) :
    ∀ e ∈ handedBack ps es, cx.Reaches e := by
  induction ps generalizing es with
  | nil =>
    cases h
    exact fun _ he => absurd he List.not_mem_nil
  | cons p ps ih =>
    cases h with
    | value hp _ _ h =>
      rw [handedBack_input hp]
      exact ih h
    | storage hp hw _ h =>
      rw [handedBack_output hp, List.forall_mem_cons]
      exact ⟨⟨_, rfl, hw⟩, ih h⟩

theorem Yields.reaches (hcx : cx.Distinct) {q : Path} {t? : Option Ty} (h : cx.Yields q t?) :
    ∀ e ∈ q.writes cx.program, cx.Reaches e := by
  fun_induction Path.writes cx.program q generalizing t? with
  | case1 => exact fun _ he => absurd he List.not_mem_nil
  | case2 f args =>
    cases h with
    | call hr hf hargs =>
      rw [hcx.program.routine?_eq_some_iff.2 ⟨hr, hf⟩]
      exact hargs.reaches
  | case3 base _ ih =>
    cases h with
    | index h _ _ => exact ih h
  | case4 base _ ih =>
    cases h with
    | member h _ _ _ => exact ih h
  | case5 base x args ih =>
    cases h with
    | method h hm hx _ hw =>
      rw [List.forall_mem_append]
      refine ⟨?_, ih h⟩
      split
      case isTrue hchanges =>
        rw [List.forall_mem_singleton]
        exact ⟨base, rfl, hw (mutates_of_mem_changingMethods hm (hx ▸ hchanges))⟩
      case isFalse => exact fun _ he => absurd he List.not_mem_nil

theorem HasType.reaches (hcx : cx.Distinct) {e : Expr} {t : Ty} (h : cx.HasType e t) :
    ∀ a ∈ e.writes cx.program, cx.Reaches a := by
  cases h with
  | path h => exact h.reaches hcx
  | literal | not | binary => exact nofun

theorem Allows.reaches (hcx : cx.Distinct) {i : Instruction} (h : cx.Allows i) :
    ∀ e ∈ i.writes cx.program, cx.Reaches e := by
  cases h with
  | read hw hq | assign hw hq =>
    rw [Instruction.writes, List.forall_mem_cons]
    exact ⟨⟨_, rfl, hw⟩, hq.reaches hcx⟩
  | evaluate _ hq => exact hq.reaches hcx
  | forLoop hx hb =>
    rw [Instruction.writes, List.forall_mem_singleton]
    exact ⟨_, rfl, .var hx hb⟩
  | print | result | branch | whileLoop | untilLoop | guarded => exact nofun

end Scope

namespace Program

/-- A program without problems writes nothing but storage: whatever a routine writes, at any depth, is a
path without calls that starts at a local, a global, or a parameter that is handed back. -/
theorem storage_of_mem_writes {p : Program} (h : p.check = []) {r : Routine} (hr : r ∈ p.routines)
    {e : Expr} (he : e ∈ r.writes p) : ∃ q, e = .path q ∧ q.isStorage = true ∧
      ∃ b, Scope.lookup? ⟨p, some r⟩ q.root.name = some b ∧ b.Storage := by
  have hp := WellTyped.of_check h
  have hcx := hp.distinct.scope_some hr
  have hreaches : Scope.Reaches ⟨p, some r⟩ e := by
    rcases List.mem_append.1 he with he | he
    · obtain ⟨i, hi, he⟩ := List.mem_flatMap.1 he
      exact (hp.instructions hr i hi).reaches hcx e he
    · obtain ⟨a, ha, he⟩ := List.mem_flatMap.1 he
      obtain ⟨t, ht⟩ := hp.nodes hr a ha
      exact ht.reaches hcx e he
  obtain ⟨q, rfl, hw⟩ := hreaches
  obtain ⟨b, hb, hstorage⟩ := hw.exists_root
  exact ⟨q, rfl, hw.isStorage, b, (Scope.lookup?_iff_binds hcx).2 hb, hstorage⟩

/-- A program with a function that writes in all five ways: it reads `n`, counts with it, assigns to
`v[n]`, hands `v` to a procedure, and takes the last element from `v`. -/
def writingProgram : Program :=
  let ident (name : String) : Ident := ⟨default, name⟩
  let v : Path := .var (ident "v")
  let n : Path := .var (ident "n")
  { ident := ident "fill"
    structures := []
    constants := []
    globals := [⟨ident "v", .vector .integer⟩]
    functions := [{
      ident := ident "fill"
      params := [⟨.input, ident "args", .vector .string⟩]
      locals := [⟨ident "n", .integer⟩]
      body := [
        .read n,
        .forLoop default (ident "n") (.literal (.integer 1))
          (.path (.method (.var (ident "args")) (ident "size") []))
          [.assign default (.index v (.path n)) (.path n)],
        .evaluate (.path (.call (ident "add") [.path v])),
        .result default (.path (.method v (ident "pop") []))]
      result := some .integer }]
    procedures := [{
      ident := ident "add"
      params := [⟨.both, ident "w", .vector .integer⟩]
      locals := []
      body := [.evaluate (.path (.method (.var (ident "w")) (ident "push") [.literal (.integer 1)]))]
      result := none }] }

theorem storage_of_mem_writes_fill : writingProgram.check = [] ∧
    ∃ r ∈ writingProgram.routines, (r.writes writingProgram).length = 5 ∧
      ∀ e ∈ r.writes writingProgram, ∃ q, e = .path q ∧ q.isStorage = true ∧
        ∃ b, Scope.lookup? ⟨writingProgram, some r⟩ q.root.name = some b ∧ b.Storage := by
  have hcheck : writingProgram.check = [] := by decide +kernel
  have hlength : (writingProgram.routines.any
      fun r => (r.writes writingProgram).length == 5) = true := by decide +kernel
  obtain ⟨r, hr, hlength⟩ := List.any_eq_true.1 hlength
  exact ⟨hcheck, r, hr, beq_iff_eq.1 hlength, fun e he => storage_of_mem_writes hcheck hr he⟩

end Program

end Primer
