import TapeCode.Command
import TapeCode.Proofs.Delivery
import TapeCode.Proofs.Saving
import TapeCode.Proofs.Translation

/-!
The commands as a whole. A source file is read, built and saved, and the first of these that fails decides how the command
ends; what was saved is then read back and run.
-/

namespace TapeCode

open Brackets

/-! ### The artifact in the tree -/

namespace Tree
variable {t : Tree} {trouble : Trouble} {token : String} {l : Location}

theorem target_artifact (t : Tree) : t.target Command.artifactName = .ok ["bf.bin"] := by
  have hstart : t.walk [] [""] = .ok [] := walk_empty (fun name hname => List.mem_singleton.mp hname) (get?_ancestor t rfl)
  rw [target_eq_ok]
  exact ⟨by decide +kernel, Or.inr ⟨"bf.bin", [], [], by decide +kernel, hstart, by decide +kernel, by decide +kernel, rfl⟩⟩

theorem walk_artifact : t.walk [] ["bf.bin"] = .ok l ↔ (t.get? ["bf.bin"]).isSome = true ∧ l = ["bf.bin"] := by
  have hordinary : Ordinary "bf.bin" := ⟨by decide, by decide, by decide⟩
  rw [walk_cons, follow_ordinary hordinary]
  constructor
  · rintro ⟨-, hsome, hwalk⟩
    exact ⟨(hsome hordinary).2, (Except.ok.inj hwalk).symm⟩
  · rintro ⟨hsome, rfl⟩
    exact ⟨get?_ancestor t rfl, fun _ => ⟨by decide +kernel, hsome⟩, rfl⟩

theorem isDirectory_artifact : t.isDirectory Command.artifactName = true ↔ t.get? ["bf.bin"] = some .directory := by
  have hnames : Path.names Command.artifactName = ["bf.bin"] := by decide +kernel
  have hcheck : checkPath Command.artifactName = .ok () := by decide +kernel
  rw [isDirectory_iff, hnames]
  constructor
  · rintro ⟨-, l, hwalk⟩
    obtain ⟨hwalk, hdirectory⟩ := walk_directory.mp hwalk
    obtain ⟨-, rfl⟩ := walk_artifact.mp hwalk
    exact hdirectory
  · intro hdirectory
    refine ⟨hcheck, ["bf.bin"], walk_directory.mpr ⟨walk_artifact.mpr ⟨?_, rfl⟩, hdirectory⟩⟩
    rw [hdirectory]
    rfl

/-- The file that is run if none is named is the artifact. -/
theorem find_default (h : (t.get? ["bf.bin"]).isSome = true) : t.find (Command.binFile []) = .ok ["bf.bin"] := by
  have hnames : Path.names (Command.binFile []) = [".", "bf.bin"] := by decide +kernel
  rw [find_eq_ok, hnames]
  refine ⟨by decide +kernel, walk_cons.mpr ⟨get?_ancestor t rfl, ?_, walk_artifact.mpr ⟨h, rfl⟩⟩⟩
  rintro ⟨-, hdot, -⟩
  exact absurd rfl hdot

/-- Nothing stands against writing the artifact. -/
structure Writable (t : Tree) (trouble : Trouble) (token : String) : Prop where
  steps : ∀ step, trouble step = none
  staging : ∃ made, t.create (stagingPath token Command.artifactName) = .ok made
  file : t.get? ["bf.bin"] ≠ some .directory

theorem savable_artifact : t.Savable trouble token Command.artifactName l ↔
    t.Writable trouble token ∧ l = ["bf.bin"] := by
  constructor
  · intro h
    refine ⟨⟨h.steps, h.staging, ?_⟩, Except.ok.inj (h.place.symm.trans (target_artifact t))⟩
    intro hdirectory
    have := isDirectory_artifact.mpr hdirectory
    rw [h.file] at this
    cases this
  · rintro ⟨h, rfl⟩
    refine ⟨h.steps, h.staging, target_artifact t, Bool.eq_false_iff.mpr ?_⟩
    intro hdirectory
    exact h.file (isDirectory_artifact.mp hdirectory)

end Tree

/-! ### Building -/

section Building
variable {source : List UInt8}

/-- What the assembler makes of the operations of a source text. -/
def assembled (source : List UInt8) : Except AsmError Program :=
  (({} : Assembler).applyAll (compile Translation.newLabel (Token.scan source)).ops).link.2

theorem Compilation.Finding.none_or_unmatched {error : Option CompileError} (h : Finding source error) :
    (error = none ∧ Balanced Kind.ofByte? source) ∨
      ∃ e, error = some e ∧ e.isUnmatched = true ∧ ¬Balanced Kind.ofByte? source := by
  cases h with
  | accepted hnested => exact Or.inl ⟨rfl, hnested.balanced⟩
  | @unopened pre post b hsplit hpre hb =>
    subst hsplit
    refine Or.inr ⟨_, rfl, rfl, ?_⟩
    intro hbal
    exact (Nested.closed hbal).not_unmatchedEnd _ (hpre.unmatchedEnd hb post).1
  | unclosed hnested =>
    refine Or.inr ⟨_, rfl, rfl, ?_⟩
    intro hbal
    obtain ⟨⟨hbegin, hno⟩, -⟩ := hnested.unmatchedBegin
    obtain ⟨j, hj⟩ := hbal.exists_closer hbegin
    exact hno j hj

theorem assembler_compile (tokens : List Token) {error : Option CompileError}
    (h : (compile Translation.newLabel tokens).error = error) :
    ({} : Assembler).compile tokens = (({} : Assembler).applyAll (compile Translation.newLabel tokens).ops, error) :=
  Prod.ext rfl h

theorem build_unbalanced (h : ¬Balanced Kind.ofByte? source) :
    ∃ e, build source = .error (.compile e) ∧ e.isUnmatched = true := by
  rcases (compile_scan_error Translation.newLabel source).none_or_unmatched with ⟨-, hbal⟩ | ⟨e, he, hunmatched, -⟩
  · exact absurd hbal h
  · refine ⟨e, ?_, hunmatched⟩
    rw [build, buildTokens, assembler_compile _ he]

theorem compile_accepted_iff (fresh : Nat → Int) :
    (compile fresh (Token.scan source)).error = none ↔ Balanced Kind.ofByte? source := by
  rcases (compile_scan_error fresh source).none_or_unmatched with ⟨hnone, hbal⟩ | ⟨e, he, -, hno⟩
  · exact ⟨fun _ => hbal, fun _ => hnone⟩
  · refine ⟨fun hnone => ?_, fun hbal => absurd hbal hno⟩
    rw [he] at hnone
    cases hnone

theorem compile_balanced (h : Balanced Kind.ofByte? source) :
    (compile Translation.newLabel (Token.scan source)).error = none :=
  (compile_accepted_iff _).mpr h

theorem build_assembled (h : Balanced Kind.ofByte? source) : build source = (assembled source).mapError .assemble := by
  rw [build, buildTokens, assembler_compile _ (compile_balanced h)]
  rfl

theorem build_failed {e : AsmError} (h : Balanced Kind.ofByte? source) (he : assembled source = .error e) :
    build source = .error (.assemble e) := by
  rw [build_assembled h, he]
  rfl

theorem build_succeeded {p : Program} (h : Balanced Kind.ofByte? source) (hp : assembled source = .ok p) :
    build source = .ok p := by
  rw [build_assembled h, hp]
  rfl

theorem Assembler.version_of_link {a : Assembler} {p : Program} (h : a.link.2 = .ok p) : p.version = 1 := by
  unfold link at h
  split at h
  · cases h
  · split at h
    · cases h
    · cases h
      rfl

end Building

/-! ### Compiling a file -/

theorem Failure.exitCode_ne_zero (f : Failure) : f.exitCode ≠ 0 := by
  rcases f with _ | _ | _ | ⟨path, e | e⟩ | _ | _ | _
  case building.compile => by_cases h : e.isUnmatched = true <;> simp [exitCode, h]
  all_goals simp [exitCode]

namespace Command
variable {t : Tree} {trouble : Trouble} {token path : String} {source : List UInt8}

theorem readFile_file (h : t.look path = .ok (.file source)) : readFile t path = .ok source := by
  have hopen : t.openFile path = .ok (Source.ofBytes source) := by
    rw [Tree.openFile, h]
  have hbytes : (Source.ofBytes source).readAll = .ok source := congrArg Except.ok (List.append_nil source)
  rw [readFile, hopen]
  simp only [hbytes]
  rfl

theorem readFile_none (h : ∀ source, t.look path ≠ .ok (.file source)) :
    ∃ reason, readFile t path = .error (.reading path reason) := by
  rcases hlook : t.look path with e | _ | bytes
  · refine ⟨(FileFailure.on "open" path e).message, ?_⟩
    simp only [readFile, Tree.openFile, hlook]
  · refine ⟨(FileFailure.on "read" path .isDirectory).message, ?_⟩
    simp only [readFile, Tree.openFile, hlook]
    rfl
  · exact absurd hlook (h bytes)

theorem compileFile_unreadable (h : ∀ source, t.look path ≠ .ok (.file source)) :
    ∃ reason, compileFile t trouble token path = { tree := t, failure := some (.reading path reason) } := by
  obtain ⟨reason, hread⟩ := readFile_none h
  exact ⟨reason, by simp only [compileFile, hread, bind, Except.bind]⟩

theorem compileFile_unbuilt {e : BuildError} (h : t.look path = .ok (.file source)) (hbuild : build source = .error e) :
    compileFile t trouble token path = { tree := t, failure := some (.building path e) } := by
  simp only [compileFile, readFile_file h, bind, Except.bind, buildSource, hbuild, Except.mapError]

theorem compileFile_unwritable {p : Program} (h : t.look path = .ok (.file source)) (hbuild : build source = .ok p)
    (hno : ¬t.Writable trouble token) :
    ∃ f, compileFile t trouble token path = { tree := t, failure := some (.writing artifactName f) } := by
  obtain ⟨f, hsave⟩ := Tree.save_not_savable (fun goal hs => hno (Tree.savable_artifact.mp hs).1) (Artifact.encode p)
  refine ⟨f, ?_⟩
  simp only [compileFile, readFile_file h, bind, Except.bind, buildSource, hbuild, Except.mapError, Tree.saveProgram, hsave]

theorem compileFile_written {p : Program} (h : t.look path = .ok (.file source)) (hbuild : build source = .ok p)
    (hwritable : t.Writable trouble token) :
    compileFile t trouble token path =
      { tree := t.put ["bf.bin"] (.file (Artifact.encode p)), stdout := Text.utf8 (compiled p) } := by
  have hsave := Tree.save_savable (Tree.savable_artifact.mpr ⟨hwritable, rfl⟩) (Artifact.encode p)
  simp only [compileFile, readFile_file h, bind, Except.bind, buildSource, hbuild, Except.mapError, Tree.saveProgram, hsave]

/-- A command that compiles fails and leaves the tree as it was, or it has written the artifact. -/
theorem compileFile_cases (t : Tree) (trouble : Trouble) (token path : String) :
    (∃ f, compileFile t trouble token path = { tree := t, failure := some f }) ∨
      ∃ source p, t.look path = .ok (.file source) ∧ assembled source = .ok p ∧ compileFile t trouble token path =
        { tree := t.put ["bf.bin"] (.file (Artifact.encode p)), stdout := Text.utf8 (compiled p) } := by
  by_cases hread : ∃ source, t.look path = .ok (.file source)
  · obtain ⟨source, hsource⟩ := hread
    by_cases hbal : Balanced Kind.ofByte? source
    · rcases hassembled : assembled source with e | p
      · exact Or.inl ⟨_, compileFile_unbuilt hsource (build_failed hbal hassembled)⟩
      · have hbuild := build_succeeded hbal hassembled
        by_cases hwritable : t.Writable trouble token
        · exact Or.inr ⟨source, p, hsource, hassembled, compileFile_written hsource hbuild hwritable⟩
        · obtain ⟨f, hf⟩ := compileFile_unwritable hsource hbuild hwritable
          exact Or.inl ⟨_, hf⟩
    · obtain ⟨e, hbuild, -⟩ := build_unbalanced hbal
      exact Or.inl ⟨_, compileFile_unbuilt hsource hbuild⟩
  · obtain ⟨reason, hreason⟩ := compileFile_unreadable (not_exists.mp hread)
    exact Or.inl ⟨_, hreason⟩

end Command

/-! ### Running the artifact -/

/-- How a run ends if all output can be written. -/
def Stop.outcome : Stop → Outcome
  | halted => .halted
  | fault f => .fault f

theorem Machine.run_unlimited {m u : Machine} {sent : List UInt8} {n : Nat} {why : Stop}
    (h : m.output.Holds none sent) (hexec : m.exec n = (u, some why)) :
    (m.run n).2 = some why.outcome ∧ (m.run n).1.output.sink.taken.toList = sent ++ m.putOut n := by
  have hrun := run_of_exec_stop hexec
  have hholds := run_holds h n
  obtain ⟨htaken, -⟩ := run_returns h hrun
  rw [Option.getD_none, List.take_length] at htaken
  rw [hrun] at hholds ⊢
  refine ⟨?_, htaken⟩
  rcases u.finish_cases why with ⟨f, rfl, hf⟩ | ⟨rfl, hhalted⟩ | ⟨-, -, hbroken⟩
  · exact congrArg some hf
  · exact congrArg some hhalted
  · cases (hholds.broken hbroken).1

namespace Command
variable {t : Tree} {path : String} {p : Program}

theorem runFile_loaded (h : t.loadProgram path = .ok p) (fuel : Nat) (stdin : Stdin) :
    let start := Machine.fresh p.code stdin.source {} stdin.terminal
    runFile t fuel path stdin = (start.run fuel).2.map fun o =>
      { tree := t
        stdout := (start.run fuel).1.output.sink.taken.toList
        prompts := (start.run fuel).1.output.log.toList.count .prompt
        failure := failureOf o } := by
  simp only [runFile, readProgram, h, Except.mapError]
  rfl

/-- Running with no file named does what a program does, whatever comes from the standard input and whether it is a terminal
or not: it goes on as long as the program does, and gives its output and whether it halted. -/
def RunsAs (t : Tree) (p : Program) : Prop :=
  ∀ fuel stdin,
    let start := Machine.fresh p.code stdin.source {} stdin.terminal
    let result := runFile t fuel (binFile []) stdin
    ((start.exec fuel).2 = none → result = none) ∧
    ∀ why, (start.exec fuel).2 = some why → ∃ r, result = some r ∧ r.tree = t ∧ r.stdout = start.putOut fuel ∧
      (why = .halted → r.exitCode = 0) ∧ ∀ f, why = .fault f → r.exitCode = 70

theorem runsAs_written (t : Tree) (hversion : p.version = 1) (hsize : p.code.size ≤ 2 ^ 30) :
    RunsAs (t.put ["bf.bin"] (.file (Artifact.encode p))) p := by
  intro fuel stdin start result
  have hget := t.get?_put (.file (Artifact.encode p)) (l := ["bf.bin"]) (by decide)
  have hfind := Tree.find_default (by rw [hget]; rfl)
  have hresult : result = _ := runFile_loaded (Tree.loadProgram_of_get? hfind hget hversion hsize) fuel stdin
  have hholds : start.output.Holds none [] :=
    ⟨rfl, rfl, fun n _ => Nat.zero_le n, fun hbroken => Bool.noConfusion hbroken, rfl⟩
  refine ⟨?_, ?_⟩
  · intro hnone
    rw [hresult, Machine.run_of_exec_none (Prod.ext rfl hnone)]
    rfl
  · intro why hwhy
    obtain ⟨houtcome, htaken⟩ := Machine.run_unlimited hholds (Prod.ext rfl hwhy)
    refine ⟨_, by rw [hresult, houtcome]; rfl, rfl, htaken, ?_, ?_⟩
    · rintro rfl
      rfl
    · rintro f rfl
      rfl

/-! ### What the commands leave in the tree -/

theorem runFile_tree {fuel : Nat} {stdin : Stdin} {r : Result} (h : runFile t fuel path stdin = some r) : r.tree = t := by
  unfold runFile at h
  split at h
  · cases h
    rfl
  · obtain ⟨o, -, rfl⟩ := Option.map_eq_some_iff.mp h
    rfl

theorem listFile_tree (t : Tree) (path : String) : (listFile t path).tree = t := by
  unfold listFile
  split <;> rfl

end Command

/-- How a command that compiles the file at a path ends, and what it leaves in the tree. -/
structure Command.Finishes (t : Tree) (trouble : Trouble) (token path : String) (r : Result) : Prop where
  unreadable : (∀ source, t.look path ≠ .ok (.file source)) → r.exitCode = 66
  unbalanced (source : List UInt8) : t.look path = .ok (.file source) → ¬Balanced Kind.ofByte? source → r.exitCode = 65
  unassembled (source : List UInt8) (e : AsmError) : t.look path = .ok (.file source) → Balanced Kind.ofByte? source →
    assembled source = .error e → r.exitCode = 1
  unwritable (source : List UInt8) (p : Program) : t.look path = .ok (.file source) → Balanced Kind.ofByte? source →
    assembled source = .ok p → ¬t.Writable trouble token → r.exitCode = 73
  written (source : List UInt8) (p : Program) : t.look path = .ok (.file source) → Balanced Kind.ofByte? source →
    assembled source = .ok p → t.Writable trouble token → r.exitCode = 0
  unchanged : r.exitCode ≠ 0 → r.tree = t
  changed : r.exitCode = 0 → ∀ l, l ≠ ["bf.bin"] → r.tree.get? l = t.get? l

theorem Command.finishes_compileFile (t : Tree) (trouble : Trouble) (token path : String) :
    Finishes t trouble token path (compileFile t trouble token path) := by
  constructor
  case unreadable =>
    intro hno
    obtain ⟨reason, h⟩ := compileFile_unreadable hno
    rw [h]
    rfl
  case unbalanced =>
    intro source hsource hno
    obtain ⟨e, hbuild, hunmatched⟩ := build_unbalanced hno
    rw [compileFile_unbuilt hsource hbuild]
    exact if_pos hunmatched
  case unassembled =>
    intro source e hsource hbal he
    rw [compileFile_unbuilt hsource (build_failed hbal he)]
    rfl
  case unwritable =>
    intro source p hsource hbal hp hno
    obtain ⟨f, h⟩ := compileFile_unwritable hsource (build_succeeded hbal hp) hno
    rw [h]
    rfl
  case written =>
    intro source p hsource hbal hp hwritable
    rw [compileFile_written hsource (build_succeeded hbal hp) hwritable]
    rfl
  case unchanged =>
    intro hexit
    rcases compileFile_cases t trouble token path with ⟨f, h⟩ | ⟨source, p, -, -, h⟩
    · rw [h]
    · rw [h] at hexit
      exact absurd rfl hexit
  case changed =>
    intro hexit l hl
    rcases compileFile_cases t trouble token path with ⟨f, h⟩ | ⟨source, p, -, -, h⟩
    · rw [h] at hexit
      exact absurd hexit f.exitCode_ne_zero
    · rw [h]
      exact Tree.get?_put_other t _ hl

/-- A program that was written is one that runs. -/
theorem Command.runs_compileFile {t : Tree} {trouble : Trouble} {token path : String}
    (hexit : (compileFile t trouble token path).exitCode = 0) :
    ∃ source p, t.look path = .ok (.file source) ∧ assembled source = .ok p ∧
      (p.code.size ≤ 2 ^ 30 → RunsAs (compileFile t trouble token path).tree p) := by
  rcases compileFile_cases t trouble token path with ⟨f, h⟩ | ⟨source, p, hsource, hp, h⟩
  · rw [h] at hexit
    exact absurd hexit f.exitCode_ne_zero
  · refine ⟨source, p, hsource, hp, ?_⟩
    intro hsize
    rw [h]
    exact runsAs_written t (Assembler.version_of_link hp) hsize

/-- From a source file to its output, on any tree and whatever steps the device refuses. The first thing that goes wrong
decides how compiling ends, and then the tree is as it was before. Otherwise only the artifact has changed, and running it
does what the program in memory does. Running and listing never change the tree. -/
theorem command_pipeline (t : Tree) (trouble : Trouble) (token : String) :
    (∀ path, let r := Command.compileFile t trouble token path
      Command.Finishes t trouble token path r ∧
      (r.exitCode = 0 → ∃ source p, t.look path = .ok (.file source) ∧ assembled source = .ok p ∧
        (p.code.size ≤ 2 ^ 30 → Command.RunsAs r.tree p))) ∧
    (∀ fuel path stdin r, Command.runFile t fuel path stdin = some r → r.tree = t) ∧
    ∀ path, (Command.listFile t path).tree = t := by
  refine ⟨fun path => ⟨Command.finishes_compileFile t trouble token path, Command.runs_compileFile⟩, ?_, ?_⟩
  · intro fuel path stdin r hr
    exact Command.runFile_tree hr
  · exact Command.listFile_tree t

/-- A source file that echoes a character is compiled and run at a terminal, where a word comes in two parts before the
line breaks. -/
theorem echo_compiled_and_run :
    let t : Tree := ⟨[(["a"], .file [0x2C, 0x2E])]⟩
    let stdin : Command.Stdin := { source := ⟨[[0x61, 0x62], [0x20]], some ⟨"broken"⟩⟩, terminal := true }
    let saved := Command.compileFile t (fun _ => none) "7" "a"
    saved.exitCode = 0 ∧ ∃ r, Command.runFile saved.tree 8 (Command.binFile []) stdin = some r ∧
      r.tree = saved.tree ∧ r.stdout = [0x61] ∧ r.exitCode = 0 := by
  intro t stdin saved
  have hexit : saved.exitCode = 0 := by decide +kernel
  refine ⟨hexit, ?_⟩
  obtain ⟨hcompile, -, -⟩ := command_pipeline t (fun _ => none) "7"
  obtain ⟨source, p, hsource, hp, hruns⟩ := (hcompile "a").2 hexit
  have hlook : t.look "a" = .ok (.file [0x2C, 0x2E]) := rfl
  obtain rfl : source = [0x2C, 0x2E] := Entry.file.inj (Except.ok.inj (hsource.symm.trans hlook))
  let code : Array UInt8 := #[0x01, 0x30, 0x75, 0x00, 0x00, 0x02, 0x03, 0x0D, 0x05, 0x04, 0x0E, 0x00]
  have hprogram : (assembled [0x2C, 0x2E]).toOption = some ⟨1, code⟩ := by decide +kernel
  rw [hp] at hprogram
  cases hprogram
  let start := Machine.fresh code stdin.source {} true
  -- Both facts at once, so that the cells are built only once.
  have hrun : (start.exec 8).2 = some .halted ∧ start.putOut 8 = [0x61] := by decide +kernel
  obtain ⟨-, hstops⟩ := hruns (by decide +kernel) 8 stdin
  obtain ⟨r, hr, htree, hstdout, hhalted, -⟩ := hstops .halted hrun.1
  exact ⟨r, hr, htree, hstdout.trans hrun.2, hhalted rfl⟩

end TapeCode
