import Primer.Target.Expr

/-!
Programs in C++: headers, helper templates, structures, constants and globals, all signatures before
the first body, the routines, and an entry point that calls the function named like the program.
-/

namespace Primer.Target

mutual
def instruction (cx : Scope) : Instruction → List Step
  | .print _ es =>
    .write "std::cout" :: es.map (fun e => .write (" << " ++ operand cx e)) ++ Step.line ";"
  | .read target => Step.line ("std::cin >> " ++ path cx target ++ ";")
  | .result _ value => Step.line ("return " ++ expr cx value ++ ";")
  | .evaluate e => Step.line (expr cx e ++ ";")
  | .assign _ target value => Step.line (path cx target ++ " = " ++ expr cx value ++ ";")
  | .branch _ condition body otherwise =>
    Step.line ("if (" ++ expr cx condition ++ ") \x7b") ++ [.indented (block cx body)] ++
      alternatives cx otherwise ++ Step.line "\x7d"
  | .whileLoop _ condition body =>
    Step.line ("while (" ++ expr cx condition ++ ") \x7b") ++ [.indented (block cx body)] ++
      Step.line "\x7d"
  | .untilLoop _ body condition =>
    Step.line "do \x7b" ++ [.indented (block cx body)] ++
      Step.line ("\x7d while (!(" ++ expr cx condition ++ "));")
  | .forLoop _ counter first last body =>
    let x := name counter.name
    -- the test converts its operands as a comparison in the language does
    let counterType := (cx.lookup? counter.name).map (·.type)
    let lastType := (cx.typeOf last).toOption
    let common := commonType? .lessOrEqual counterType lastType
    let test := ((conversion? counterType common).map (cast · x)).getD x
    let bound := converted last (expr cx last) lastType common
    Step.line ("for (" ++ x ++ " = " ++ expr cx first ++ "; " ++ test ++ " <= " ++ bound ++ "; ++" ++
        x ++ ") \x7b") ++
      [.indented (block cx body)] ++ Step.line "\x7d"
  | .guarded _ condition i =>
    Step.line ("if (" ++ expr cx condition ++ ") \x7b") ++ [.indented (instruction cx i)] ++
      Step.line "\x7d"

def alternatives (cx : Scope) : Alternatives → List Step
  | .none => []
  | .otherwise body => Step.line "\x7d else \x7b" ++ [.indented (block cx body)]
  | .elsif _ condition body next =>
    Step.line ("\x7d else if (" ++ expr cx condition ++ ") \x7b") ++ [.indented (block cx body)] ++
      alternatives cx next

def block (cx : Scope) : List Instruction → List Step
  | [] => []
  | i :: is => instruction cx i ++ block cx is
end

/-- A variable with its initial value. -/
def variableLine (s : Symbol) : List Step := Step.line (declaration s ++ "\x7b\x7d;")

def structureDeclaration (s : Structure) : List Step :=
  Step.line ("struct " ++ name s.name ++ " \x7b") ++ [.indented (s.members.flatMap variableLine)] ++
    Step.line "\x7d;"

def routine (cx : Scope) (r : Routine) : List Step :=
  Step.line (signature r ++ " \x7b") ++
    [.indented (r.locals.flatMap variableLine ++ block cx r.body)] ++ Step.line "\x7d"

def headers : List String := ["iostream", "string", "vector"]

/-- The templates that vector methods become calls of. The type of an element is not deduced, so that
literals convert to it. -/
def helpers : List String :=
  ["template <typename T> using algo_elem = typename std::vector<T>::value_type;",
    "template <typename T> void algo_push(std::vector<T>& v, const algo_elem<T>& x) " ++
      "\x7b v.push_back(x); \x7d",
    "template <typename T> void algo_insert(std::vector<T>& v, unsigned long long i, " ++
      "const algo_elem<T>& x) \x7b v.insert(v.begin() + i, x); \x7d",
    "template <typename T> void algo_remove(std::vector<T>& v, unsigned long long i) " ++
      "\x7b v.erase(v.begin() + i); \x7d",
    "template <typename T> T algo_pop(std::vector<T>& v) " ++
      "\x7b T x = v.back(); v.pop_back(); return x; \x7d",
    "template <typename T> void algo_clear(std::vector<T>& v) \x7b v.clear(); \x7d",
    "template <typename T> unsigned long long algo_size(const std::vector<T>& v) " ++
      "\x7b return v.size(); \x7d",
    "template <typename T> const T& algo_at(const std::vector<T>& v, unsigned long long i) " ++
      "\x7b return v.at(i); \x7d"]

/-- The entry point. -/
def entryPoint (p : Program) : List Step :=
  .newline :: Step.line ("int " ++ reservedProgramName ++ "(int argc, char** argv) \x7b") ++
    [.indented (Step.line "std::cout << std::boolalpha;" ++
      Step.line (type (.vector .string) ++ " args(argv + 1, argv + argc);") ++
      Step.line ("return static_cast<int>(" ++ name p.name ++ "(args));"))] ++
    Step.line "\x7d"

/-- All of a program; with its own helper templates unless they come from elsewhere. -/
def program (withHelpers : Bool) (p : Program) : List Step :=
  headers.flatMap (fun h => Step.line ("#include <" ++ h ++ ">")) ++
    [.newline] ++ Step.line "using namespace std::string_literals;" ++
    (if withHelpers then .newline :: helpers.flatMap Step.line else []) ++
    p.structures.flatMap (fun s => .newline :: structureDeclaration s) ++ Canonical.gap p ++
    p.constants.flatMap (fun c => Step.line
      ("const " ++ declaration c.symbol ++ " = " ++ expr ⟨p, none⟩ c.value ++ ";")) ++
    p.globals.flatMap variableLine ++
    (if p.routines.isEmpty then [] else [.newline]) ++
    p.routines.flatMap (fun r => Step.line (signature r ++ ";")) ++
    p.routines.flatMap (fun r => .newline :: routine ⟨p, some r⟩ r) ++ entryPoint p

end Primer.Target

namespace Primer

/-- How the C++ text is written. -/
structure TargetOptions where
  indentWidth : Nat := defaultIndentWidth
  /-- Whether the helper templates are part of the text. -/
  withHelpers : Bool := true
deriving DecidableEq, Repr

/-- The C++ text of a program. -/
def Program.targetText (p : Program) (options : TargetOptions := {}) : String :=
  Step.render (Target.program options.withHelpers p) options.indentWidth

/-- Writes the C++ text into a buffer of that capacity. Tells whether all of it fits. -/
def Program.writeTarget (p : Program) (capacity : Nat) (options : TargetOptions := {}) :
    Buffer × Bool :=
  Step.renderWithin (Target.program options.withHelpers p) options.indentWidth capacity

end Primer
