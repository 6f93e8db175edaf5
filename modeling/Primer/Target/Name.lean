import Primer.Program
import Primer.Typing.Check

/-!
Names and types in C++.
-/

namespace Primer.Target

/-- Words that are names in the language and reserved in C++ or used by the generated text. -/
def reserved : List String :=
  ["alignas", "alignof", "asm", "auto", "bool", "break", "case", "catch", "class", "const",
    "constexpr", "const_cast", "continue", "decltype", "default", "delete", "double", "dynamic_cast",
    "enum", "explicit", "export", "extern", "float", "friend", "goto", "inline", "int", "long",
    "mutable", "namespace", "new", "noexcept", "nullptr", "operator", "private", "protected",
    "public", "register", "reinterpret_cast", "short", "signed", "sizeof", "static", "static_assert",
    "static_cast", "struct", "switch", "template", "this", "throw", "try", "typedef", "typeid",
    "typename", "union", "unsigned", "using", "virtual", "void", "volatile", "wchar_t", "xor",
    "xor_eq", "and_eq", "or_eq", "not_eq", "bitand", "bitor", "compl", "char8_t", "char16_t",
    "char32_t", "thread_local", "concept", "requires", "co_await", "co_yield", "co_return",
    "consteval", "constinit", "std", "argc", "argv"]

/-- What the names of the helper templates start with. -/
def helperStem : String := "algo_"

/-- Whether a name means something else in the generated text. -/
def isTaken (name : String) : Bool :=
  reserved.contains name || name == reservedProgramName ||
    helperStem.toList.isPrefixOf name.toList

/-- The C++ name for a name of the program. -/
def name (name : String) : String :=
  if isTaken name then name ++ "_" else name

def type : Ty → String
  | .boolean => "bool"
  | .integer => "long long"
  | .natural => "unsigned long long"
  | .real => "double"
  | .char => "char"
  | .string => "std::string"
  | .vector element => "std::vector<" ++ type element ++ ">"
  | .named structureName => name structureName

/-- The declaration of a variable. -/
def declaration (s : Symbol) : String := type s.type ++ " " ++ name s.name

/-- The declaration of a parameter. What the routine may write is a reference; what it only reads is
a reference to a constant if a copy may be costly. -/
def parameter (p : Parameter) : String :=
  let type := type p.symbol.type
  let name := name p.name
  if p.mode.isWritable then type ++ "& " ++ name
  else if p.symbol.type.isScalar && p.symbol.type != .string then type ++ " " ++ name
  else "const " ++ type ++ "& " ++ name

def signature (r : Routine) : String :=
  (r.result.map type).getD "void" ++ " " ++ name r.name ++ "(" ++
    ", ".intercalate (r.params.map parameter) ++ ")"

end Primer.Target
