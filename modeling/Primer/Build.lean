import Primer.Grammar.Program
import Primer.Target.Program

/-!
From the text of a program to a program without problems.
-/

namespace Primer

/-- Why a text gives no program to run. -/
inductive BuildError where
  | unreadable (error : ReadError)
  | invalid (diagnostics : List Diagnostic)
deriving Repr

/-- The message, with places in the text. -/
def BuildError.message (text : String) : BuildError → String
  | unreadable error => error.message text
  | invalid diagnostics => Diagnostic.messages diagnostics (some text)

/-- Reads and checks a program. -/
def Program.build (text : String) : Except BuildError Program :=
  match Program.parse text with
  | .error e => .error (.unreadable e)
  | .ok p => if p.check.isEmpty then .ok p else .error (.invalid p.check)

end Primer
