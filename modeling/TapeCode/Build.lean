import TapeCode.Assembler
import TapeCode.Token.Scan

/-!
Building: from tokens, or from source text, to a program.
-/

namespace TapeCode

/-- Why a source has no program. -/
inductive BuildError where
  | compile (e : CompileError)
  | assemble (e : AsmError)
  deriving DecidableEq, Repr

/-- The text of the error. -/
def BuildError.message : BuildError → String
  | compile e => e.message
  | assemble e => e.message

/-- The program of a token list. -/
def buildTokens (tokens : List Token) : Except BuildError Program :=
  match ({} : Assembler).compile tokens with
  | (_, some e) => .error (.compile e)
  | (a, none) => a.link.2.mapError .assemble

/-- The program of a source text. -/
def build (source : List UInt8) : Except BuildError Program :=
  buildTokens (Token.scan source)

end TapeCode
