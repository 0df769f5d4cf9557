import TapeCode.Op
import TapeCode.Token

/-!
Compilation: one pass over the tokens that emits operations as it goes. Runs of equal commands become one
operation, and the loops that are open are kept on a stack. The operations emitted before an error are part
of the result.
-/

namespace TapeCode

/-- Why a token list is not a program. -/
inductive CompileError where
  /-- The end mark is missing, or it is not the last token. -/
  | badSequence
  /-- A `]` closes no loop. -/
  | unmatchedEnd (line : Int)
  /-- A loop is still open at the end of the program. -/
  | unmatchedBegin (line : Int)
  /-- A token is of no known kind. -/
  | unknownToken (token : Token)
  deriving DecidableEq, Repr

namespace CompileError

/-- What is wrong, without the place. -/
def complaint : CompileError → String
  | badSequence => "token sequence not terminated by a single End"
  | unmatchedEnd _ => "unmatched ']'"
  | unmatchedBegin _ => "unmatched '['"
  | unknownToken token => "unknown token " ++ token.text

/-- The line to blame, if the error has one. -/
def line? : CompileError → Option Int
  | badSequence => none
  | unmatchedEnd line => some line
  | unmatchedBegin line => some line
  | unknownToken token => some token.line

/-- The text of the error. -/
def message (e : CompileError) : String :=
  match e.line? with
  | none => e.complaint
  | some line => "line " ++ Text.signedDecimal line ++ ": " ++ e.complaint

/-- Whether the error is an unmatched bracket. -/
def isUnmatched : CompileError → Bool
  | unmatchedEnd _ | unmatchedBegin _ => true
  | badSequence | unknownToken _ => false

end CompileError

/-- The operations emitted, and the error that stopped the pass, if any. -/
structure Compilation where
  ops : Array Op
  error : Option CompileError

/-- An open loop: the labels before and behind it, and the line of its `[`. -/
structure Loop where
  start : Int
  finish : Int
  line : Int

namespace Compilation

/-- The number of cells a program has. -/
def cells : Int := 30000

/-- What every program starts with. -/
def opening : Array Op :=
  #[.alloc cells, .reset, .openInput]

/-- The length of the run that a token just taken starts, if `rest` follows it. -/
def runLength (kind : Kind) (rest : List Token) : Int :=
  (rest.takeWhile (Token.isA kind)).length + 1

/-- What follows that run. -/
def afterRun (kind : Kind) (rest : List Token) : List Token :=
  rest.dropWhile (Token.isA kind)

theorem length_afterRun_le (kind : Kind) (rest : List Token) :
    (afterRun kind rest).length ≤ rest.length :=
  (List.dropWhile_sublist _).length_le

/-- A lone move is a step; a run of moves is one move of its length. -/
def moveOp (direction run : Int) : Op :=
  if run = 1 then .step direction else .move (direction * run)

/-- The pass over the tokens. `fresh k` is the label that the `k`-th request for one returns, `created` the
number of requests made so far, `loops` the open loops, innermost first. -/
def emit (fresh : Nat → Int) (created : Nat) (loops : List Loop) (ops : Array Op) :
    List Token → Compilation
  | [] => ⟨ops, some .badSequence⟩
  | token :: rest =>
    match token.kind with
    | .increment =>
      emit fresh created loops (ops ++ #[.load, .add (runLength .increment rest), .store])
        (afterRun .increment rest)
    | .decrement =>
      emit fresh created loops (ops ++ #[.load, .sub (runLength .decrement rest), .store])
        (afterRun .decrement rest)
    | .moveForward =>
      emit fresh created loops (ops.push (moveOp 1 (runLength .moveForward rest)))
        (afterRun .moveForward rest)
    | .moveBackward =>
      emit fresh created loops (ops.push (moveOp (-1) (runLength .moveBackward rest)))
        (afterRun .moveBackward rest)
    | .output => emit fresh created loops (ops ++ #[.load, .putc]) rest
    | .input => emit fresh created loops (ops ++ #[.getc, .store]) rest
    | .loopBegin =>
      let start := fresh created
      let finish := fresh (created + 1)
      emit fresh (created + 2) (⟨start, finish, token.line⟩ :: loops)
        (ops ++ #[.newLabel, .newLabel, .mark start, .load, .jumpIfZero finish]) rest
    | .loopEnd =>
      match loops with
      | [] => ⟨ops, some (.unmatchedEnd token.line)⟩
      | loop :: loops => emit fresh created loops (ops ++ #[.jump loop.start, .mark loop.finish]) rest
    | .endMark =>
      match loops, rest with
      | loop :: _, _ => ⟨ops, some (.unmatchedBegin loop.line)⟩
      | [], _ :: _ => ⟨ops, some .badSequence⟩
      | [], [] => ⟨ops.push .halt, none⟩
    | .unknown _ => ⟨ops, some (.unknownToken token)⟩
termination_by tokens => tokens.length
decreasing_by
  all_goals
    simp only [List.length_cons]
    first
      | omega
      | exact Nat.lt_succ_of_le (length_afterRun_le _ _)

end Compilation

/-- Compiles a token list for a receiver whose `k`-th new label is `fresh k`. A list that does not end with
an end mark is refused before anything is emitted. -/
def compile (fresh : Nat → Int) (tokens : List Token) : Compilation :=
  match tokens.getLast? with
  | some last =>
    if last.kind = .endMark then Compilation.emit fresh 0 [] Compilation.opening tokens
    else ⟨#[], some .badSequence⟩
  | none => ⟨#[], some .badSequence⟩

end TapeCode
