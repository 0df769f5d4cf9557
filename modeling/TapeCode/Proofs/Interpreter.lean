import Mathlib.Data.List.Basic
import TapeCode.Machine
import TapeCode.Proofs.Brackets
import TapeCode.Proofs.Iteration
import TapeCode.Proofs.Scanning

/-!
What programs mean: an interpreter that executes a text command by command. It knows no operations and no code. Its
pointer is any integer, and a loop goes to the bracket that matches.
-/

namespace TapeCode

open Brackets

/-- Whether commands of a kind use the cell under the pointer before they do anything. -/
def Kind.touches : Kind → Bool
  | increment | decrement | output | loopBegin | loopEnd => true
  | endMark | moveForward | moveBackward | input | unknown _ => false

/-- Why an interpreter stops. -/
inductive Ending where
  | halted
  | fault (cause : Cause)
  deriving DecidableEq, Repr

/-- The state of a program that is interpreted: the position in its text, its cells and pointer, the input left and
the output so far. -/
structure Interpreter where
  position : Nat := 0
  cells : Vector UInt8 30000 := Vector.replicate 30000 0
  pointer : Int := 0
  source : Source := ⟨[], none⟩
  words : WordReader := {}
  output : Array UInt8 := #[]

namespace Interpreter

/-- The same state at another position. -/
def placed (s : Interpreter) (position : Nat) : Interpreter :=
  { s with position }

/-- Goes on behind a position. -/
def behind (s : Interpreter) (position : Nat) : Progress Interpreter Ending :=
  .next (s.placed (position + 1))

/-- Goes on with the next character. -/
def advance (s : Interpreter) : Progress Interpreter Ending :=
  s.behind s.position

/-- There is a cell under the pointer. -/
def InRange (s : Interpreter) : Prop :=
  0 ≤ s.pointer ∧ s.pointer.toNat < 30000

instance (s : Interpreter) : Decidable s.InRange :=
  inferInstanceAs (Decidable (_ ∧ _))

/-- The index of the cell under the pointer. -/
def here (s : Interpreter) (h : s.InRange) : Fin 30000 :=
  ⟨s.pointer.toNat, h.2⟩

/-- The byte in a cell. -/
def cell (s : Interpreter) (i : Fin 30000) : UInt8 :=
  s.cells.get i

/-- Puts a byte into a cell. -/
def put (s : Interpreter) (i : Fin 30000) (byte : UInt8) : Interpreter :=
  { s with cells := s.cells.set i byte }

/-- Uses the cell under the pointer, if there is one. -/
def touch (s : Interpreter) (use : Fin 30000 → Progress Interpreter Ending) : Progress Interpreter Ending :=
  if h : s.InRange then use (s.here h)
  else .stop s (.fault (.pointerRange s.pointer 30000))

/-- Executes a command of a program. A word is taken from the input before the cell for it is looked at. -/
def perform (program : List UInt8) (s : Interpreter) : Kind → Progress Interpreter Ending
  | .increment => s.touch fun i => (s.put i (s.cell i + 1)).advance
  | .decrement => s.touch fun i => (s.put i (s.cell i - 1)).advance
  | .moveForward => { s with pointer := s.pointer + 1 }.advance
  | .moveBackward => { s with pointer := s.pointer - 1 }.advance
  | .output => s.touch fun i => { s with output := s.output.push (s.cell i) }.advance
  | .input =>
    match s.words.next s.source with
    | (.ok word, words, source) =>
      let s := { s with words, source }
      s.touch fun i => (s.put i (Text.initial word)).advance
    | (.error ended, words, source) => .stop { s with words, source } (.fault (Machine.causeOf ended))
  | .loopBegin =>
    s.touch fun i =>
      if s.cell i = 0 then s.behind ((closer Kind.ofByte? program s.position).getD s.position) else s.advance
  | .loopEnd =>
    s.touch fun i =>
      if s.cell i = 0 then s.advance else s.behind ((opener Kind.ofByte? program s.position).getD s.position)
  | .endMark | .unknown _ => s.advance

/-- Executes the character at the position. There is none at the end, where the program halts. -/
def step (program : List UInt8) (s : Interpreter) : Progress Interpreter Ending :=
  match program[s.position]? with
  | none => .stop s .halted
  | some b =>
    match Kind.ofByte? b with
    | none => s.advance
    | some kind => s.perform program kind

/-- Interprets a program for at most `fuel` characters. There is no ending if it would go on. -/
def run (program : List UInt8) (fuel : Nat) (s : Interpreter) : Interpreter × Option Ending :=
  Progress.iterate (step program) fuel s

/-! ### Cells -/

@[simp]
theorem put_cell (s : Interpreter) (i : Fin 30000) : s.put i (s.cell i) = s := by
  rw [put, show s.cell i = s.cells[i] from rfl, Fin.getElem_fin, Vector.set_getElem_self]

@[simp]
theorem put_put (s : Interpreter) (i : Fin 30000) (x y : UInt8) : (s.put i x).put i y = s.put i y := by
  simp [put]

@[simp]
theorem cell_put (s : Interpreter) (i : Fin 30000) (x : UInt8) : (s.put i x).cell i = x :=
  Vector.getElem_set_self i.isLt

theorem placed_put (s : Interpreter) (i : Fin 30000) (x : UInt8) (position : Nat) :
    (s.put i x).placed position = (s.placed position).put i x :=
  rfl

/-! ### Commands and comments -/

section Step
variable {program : List UInt8} {s : Interpreter} {b : UInt8} {kind : Kind} {n c p : Nat}

theorem touch_inRange (hr : s.InRange) (use : Fin 30000 → Progress Interpreter Ending) :
    s.touch use = use (s.here hr) :=
  dif_pos hr

theorem touch_outside (hr : ¬s.InRange) (use : Fin 30000 → Progress Interpreter Ending) :
    s.touch use = .stop s (.fault (.pointerRange s.pointer 30000)) :=
  dif_neg hr

theorem perform_outside (hk : kind.touches = true) (hr : ¬s.InRange) (program : List UInt8) :
    s.perform program kind = .stop s (.fault (.pointerRange s.pointer 30000)) := by
  cases kind with
  | increment | decrement | output | loopBegin | loopEnd => rw [perform, touch_outside hr]
  | endMark | moveForward | moveBackward | input | unknown code => cases hk

theorem step_command (hk : program[s.position]?.bind Kind.ofByte? = some kind) :
    s.step program = s.perform program kind := by
  obtain ⟨b, hb, hk⟩ := Option.bind_eq_some_iff.mp hk
  simp only [step, hb, hk]

theorem step_comment (hb : program[s.position]? = some b) (hk : Kind.ofByte? b = none) :
    s.step program = s.advance := by
  simp only [step, hb, hk]

theorem step_end (h : program[s.position]? = none) : s.step program = .stop s .halted := by
  simp only [step, h]

/-- The commands of a program, with its end. -/
def commands (program : List UInt8) : List Kind :=
  program.filterMap Kind.ofByte? ++ [.endMark]

/-- How many commands stand before a position. -/
def before (program : List UInt8) (position : Nat) : Nat :=
  ((program.take position).filterMap Kind.ofByte?).length

theorem before_succ (hb : program[p]? = some b) :
    before program (p + 1) = before program p + if (Kind.ofByte? b).isSome then 1 else 0 := by
  obtain ⟨hp, rfl⟩ := List.getElem?_eq_some_iff.mp hb
  rw [before, List.take_succ_eq_append_getElem hp, List.filterMap_append, List.length_append, before]
  rcases hk : Kind.ofByte? program[p] with _ | kind
  · simp [hk]
  · simp [hk]

theorem commands_before (hk : program[p]?.bind Kind.ofByte? = some kind) :
    (commands program)[before program p]? = some kind := by
  obtain ⟨pre, b, post, rfl, rfl, hb⟩ := exists_split hk
  simp [commands, before, hb]

theorem commands_end (h : program.length ≤ p) : (commands program)[before program p]? = some .endMark := by
  simp [commands, before, List.take_of_length_le h]

/-- Comments are passed until the next command comes, or the end. -/
theorem exists_command (s : Interpreter) (hk : (commands program)[before program s.position]? = some kind) :
    ∃ n p, Progress.iterate (step program) n s = (s.placed p, none) ∧
      before program p = before program s.position ∧
      (kind ≠ .endMark → program[p]?.bind Kind.ofByte? = some kind) ∧ (kind = .endMark → program[p]? = none) := by
  induction hd : program.length - s.position generalizing s with
  | zero =>
    rw [commands_end (by omega)] at hk
    obtain rfl := Option.some.inj hk
    exact ⟨0, s.position, rfl, rfl, fun h => absurd rfl h, fun _ => List.getElem?_eq_none_iff.mpr (by omega)⟩
  | succ d ih =>
    obtain ⟨b, hb⟩ : ∃ b, program[s.position]? = some b := ⟨_, List.getElem?_eq_getElem (by omega)⟩
    rcases hkind : Kind.ofByte? b with _ | kind'
    · have hsame : before program (s.position + 1) = before program s.position := by
        rw [before_succ hb, hkind]
        rfl
      obtain ⟨n, p, hiter, hp, hcommand, hend⟩ := ih (s.placed (s.position + 1)) (hsame ▸ hk) (by
        show program.length - (s.position + 1) = d
        omega)
      exact ⟨n + 1, p, (Progress.iterate_next (step_comment hb hkind) n).trans hiter, hp.trans hsame, hcommand, hend⟩
    · have hhere : program[s.position]?.bind Kind.ofByte? = some kind' := by rw [hb, Option.bind_some, hkind]
      rw [commands_before hhere] at hk
      obtain rfl := Option.some.inj hk
      exact ⟨0, s.position, rfl, rfl, fun _ => hhere, fun h => absurd h (Kind.ofByte?_command hkind).1⟩

theorem before_command (hk : program[p]?.bind Kind.ofByte? = some kind) :
    before program (p + 1) = before program p + 1 := by
  obtain ⟨b, hb, hk⟩ := Option.bind_eq_some_iff.mp hk
  rw [before_succ hb, hk]
  rfl

/-- A run of commands is executed one by one, with whatever comments there are in between. -/
theorem iterate_run (after : Nat → Interpreter) (hp : before program p = c)
    (hcommands : ∀ i < n, (commands program)[c + i]? = some kind) (hkind : kind ≠ .endMark)
    (hperform : ∀ i < n, ∀ p, ((after i).placed p).perform program kind = ((after (i + 1)).placed p).advance) :
    ∃ m q, n ≤ m ∧ Progress.iterate (step program) m ((after 0).placed p) = ((after n).placed q, none) ∧
      before program q = c + n := by
  induction n with
  | zero => exact ⟨0, p, Nat.le_refl 0, rfl, hp⟩
  | succ n ih =>
    obtain ⟨m, q, hm, hiter, hq⟩ := ih (fun i hi => hcommands i (by omega)) (fun i hi => hperform i (by omega))
    have hnext : (commands program)[before program q]? = some kind := hq ▸ hcommands n (by omega)
    obtain ⟨m', q', hskip, hq', hcommand, -⟩ := exists_command ((after n).placed q) hnext
    have hstep := step_command (s := (after n).placed q') (hcommand hkind)
    rw [hperform n (by omega)] at hstep
    refine ⟨m + (m' + 1), q' + 1, by omega, ?_, ?_⟩
    · rw [Progress.iterate_add hiter, Progress.iterate_add hskip]
      exact Progress.iterate_one hstep
    · rw [before_command (hcommand hkind), hq']
      exact congrArg (· + 1) hq

end Step

/-! ### Brackets of the text and of the commands -/

section Loops
variable {program : List UInt8} {p j : Nat}

theorem matches_commands (h : Matches Kind.ofByte? program p j) :
    Matches some (commands program) (before program p) (before program j) := by
  have spells : Spells Kind.ofByte? some (fun b => (Kind.ofByte? b).toList) program := by
    refine ⟨fun b _ k _ hk => ⟨k, by rw [hk, Option.toList_some], rfl⟩, fun b _ hb he k hk => ?_⟩
    rw [← Option.mem_toList.mp hk] at *
    exact ⟨hb, he⟩
  have := (h.flatMap spells).append [] [.endMark]
  simpa [commands, before, List.filterMap_eq_flatMap_toList] using this

end Loops

end Interpreter

end TapeCode
