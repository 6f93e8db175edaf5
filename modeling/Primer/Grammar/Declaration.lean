import Primer.Grammar.Instruction
import Primer.Program

/-!
The grammar of types and declarations. A type may refer to the structures that are declared before it;
`known` lists their names.
-/

namespace Primer.Grammar

open Primer.Parser

def scalarType : Parser Ty :=
  choice <| Ty.scalars.map fun t => do
    word t.text
    return t

def vectorType (type : Parser Ty) : Parser Ty := do
  word "vector"
  expect "'of' after 'vector'" (afterSpace (word "of"))
  let element ← expect "element type" (afterSpace type)
  return .vector element

def namedType (known : List String) : Parser Ty := do
  let start ← here
  let ident ← ident
  if known.contains ident.name then return .named ident.name
  else haltAt start (.undefinedStructure ident.name)

def type (known : List String) : Parser Ty :=
  fix fun type => scalarType <|> vectorType type <|> namedType known

def symbol (known : List String) : Parser Symbol := do
  let ident ← ident
  discard <| expect "':' after name" (spaced (char ':'))
  let type ← expect "type" (type known)
  return ⟨ident, type⟩

def structureDeclaration (known : List String) : Parser Structure := do
  word "structure"
  let ident ← expect "structure name" (afterSpace ident)
  expect "end of line after structure name" lineEnd
  let members ← many do
    let member ← symbol known
    expect "end of line after member" lineEnd
    return member
  expect "'end' after structure members" (word "end")
  expect "end of line after 'end'" lineEnd
  return ⟨ident, members⟩

def constantDeclaration (known : List String) : Parser Constant := do
  word "constant"
  let symbol ← expect "constant name" (afterSpace (symbol known))
  discard <| expect "'=' after constant type" (spaced (char '='))
  let value ← expect "constant value" expression
  expect "end of line after constant" lineEnd
  return ⟨symbol, value⟩

def globalDeclaration (known : List String) : Parser Symbol := do
  word "global"
  let symbol ← expect "global name" (afterSpace (symbol known))
  expect "end of line after global" lineEnd
  return symbol

def localDeclaration (known : List String) : Parser Symbol := do
  word "local"
  let symbol ← expect "local name" (afterSpace (symbol known))
  expect "end of line after local" lineEnd
  return symbol

def mode : Parser Mode :=
  choice <| Mode.all.map fun m => do
    word m.text
    return m

def parameter (known : List String) : Parser Parameter := do
  let mode ← expect "passing mode 'in', 'out' or 'inout'" mode
  let symbol ← expect "argument name" (afterSpace (symbol known))
  return ⟨mode, symbol⟩

def parameters (known : List String) : Parser (List Parameter) := do
  discard <| expect "'(' after name" (afterSpace (char '('))
  let params ←
    (do discard <| lookAhead (afterSpace (char ')')); return []) <|>
      sepBy1 (spaced (parameter known)) (char ',')
  discard <| expect "')' after arguments" (afterSpace (char ')'))
  return params

/-- What follows the signature of a routine. -/
def routineBody (known : List String) : Parser (List Symbol × List Instruction) := do
  expect "end of line after signature" lineEnd
  let locals ← many (localDeclaration known)
  let body ← block instruction ["end"]
  expect "'end'" (word "end")
  expect "end of line after 'end'" lineEnd
  return (locals, body)

def functionDeclaration (known : List String) : Parser Routine := do
  word "function"
  let ident ← expect "function name" (afterSpace ident)
  let params ← parameters known
  discard <| expect "':' before return type" (spaced (char ':'))
  let result ← expect "return type" (type known)
  let (locals, body) ← routineBody known
  return ⟨ident, params, locals, body, some result⟩

def procedureDeclaration (known : List String) : Parser Routine := do
  word "procedure"
  let ident ← expect "procedure name" (afterSpace ident)
  let params ← parameters known
  let (locals, body) ← routineBody known
  return ⟨ident, params, locals, body, none⟩

def declaration (known : List String) : Parser Declaration :=
  (do return .ofStructure (← structureDeclaration known)) <|>
  (do return .ofConstant (← constantDeclaration known)) <|>
  (do return .ofGlobal (← globalDeclaration known)) <|>
  (do return .ofRoutine (← functionDeclaration known)) <|>
  (do return .ofRoutine (← procedureDeclaration known))

/-- The structures among the declarations. -/
def structureNames (declarations : List Declaration) : List String :=
  declarations.filterMap fun
    | .ofStructure s => some s.name
    | _ => none

/-- Declarations, each of which knows the structures declared before it. -/
def declarations : Parser (List Declaration) :=
  manyWith fun earlier => declaration (structureNames earlier)

end Primer.Grammar
