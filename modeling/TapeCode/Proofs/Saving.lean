import TapeCode.Proofs.Format
import TapeCode.Proofs.Paths
import TapeCode.Tree.Save

/-!
Saving a file is all or nothing. The steps are those of any device and are followed here in a tree. The staging file is made
under a name that is free, so taking it away gives back the tree as it was, and renaming it changes the tree at the place of
the path only.
-/

namespace TapeCode

theorem Artifact.read_encode {p : Program} (hversion : p.version = 1) (hsize : p.code.size ≤ 2 ^ 30) :
    (read (Source.ofBytes (encode p))).1 = .ok p :=
  read_of_bytes hversion hsize (List.append_nil _)

namespace Tree
variable {t t' : Tree} {trouble : Trouble} {token path staging : String} {staged goal : Location} {bytes : List UInt8}

theorem create_eq_ok : t.create path = .ok (t', staged) ↔
    t.target path = .ok staged ∧ t.get? staged = none ∧ t' = t.put staged (.file []) := by
  unfold create
  rcases htarget : t.target path with e | l
  · simp [bind, Except.bind]
  · rcases hget : t.get? l with _ | e
    · simp only [bind, Except.bind, hget, Option.isSome_none, Bool.false_eq_true, ↓reduceIte]
      constructor
      · rintro ⟨⟩
        exact ⟨rfl, hget, rfl⟩
      · rintro ⟨⟨⟩, -, rfl⟩
        rfl
    · simp only [bind, Except.bind, hget, Option.isSome_some, ↓reduceIte]
      constructor
      · rintro ⟨⟩
      · rintro ⟨⟨⟩, hnone, -⟩
        rw [hget] at hnone
        cases hnone

/-- A file that stands at a place goes to the place of a path, unless that is a directory. -/
theorem rename_eq_ok {e : Entry} (he : t.get? staged = some e) : t.rename staged path = .ok t' ↔
    t.isDirectory path = false ∧ ∃ goal, t.target path = .ok goal ∧ t' = (t.erase staged).put goal e := by
  unfold rename
  rcases hdirectory : t.isDirectory path with _ | _
  · rcases htarget : t.target path with error | goal
    · simp [bind, Except.bind]
    · simp [bind, Except.bind, he, eq_comm]
  · simp

/-- Nothing stands against saving a file: no step fails, the staging file can be made, and the path has a place that is
no directory. -/
structure Savable (t : Tree) (trouble : Trouble) (token path : String) (goal : Location) : Prop where
  steps : ∀ step, trouble step = none
  staging : ∃ made, t.create (stagingPath token path) = .ok made
  place : t.target path = .ok goal
  file : t.isDirectory path = false

/-- Renaming the staging file gives the old tree, with the file at its goal. -/
theorem rename_staged (hfree : t.get? staged = none) :
    (t.put staged (.file bytes)).rename staged path = .ok t' ↔
      t.isDirectory path = false ∧ ∃ goal, t.target path = .ok goal ∧ t' = t.put goal (.file bytes) := by
  have halike : t.Alike (t.put staged (.file bytes)) := alike_put (by simp [hfree]) bytes
  rw [rename_eq_ok (get?_put t _ (isAncestor_of_free hfree)), erase_put hfree, ← halike.isDirectory path]
  constructor
  · rintro ⟨hfile, goal, htarget, rfl⟩
    exact ⟨hfile, goal, halike.symm.target htarget, rfl⟩
  · rintro ⟨hfile, goal, htarget, rfl⟩
    exact ⟨hfile, goal, halike.target htarget, rfl⟩

/-! ### The steps in a tree -/

@[simp] theorem attempt_nil (t : Tree) : Device.attempt ([] : List (StateM Tree (Option FileFailure))) t = (none, t) :=
  rfl

/-- A step that fails is the last one. -/
@[simp] theorem attempt_cons (failed : FileError → FileFailure) (step : StateM Tree (Option FileError))
    (steps : List (StateM Tree (Option FileFailure))) (t : Tree) :
    Device.attempt ((Option.map failed <$> step) :: steps) t =
      match step t with
      | (some e, t') => (some (failed e), t')
      | (none, t') => Device.attempt steps t' := by
  simp only [Device.attempt, bind, StateT.bind, Functor.map, StateT.map]
  rcases step t with ⟨_ | e, t'⟩ <;> rfl

@[simp] theorem device_write (t : Tree) (staged : Location) (bytes : List UInt8) :
    (device trouble).write staged bytes t =
      match trouble .write with
      | some e => (some e, t)
      | none => (none, t.put staged (.file bytes)) :=
  rfl

@[simp] theorem device_permit (t : Tree) (staged : Location) :
    (device trouble).permit staged t = (trouble .permit, t) :=
  rfl

@[simp] theorem device_sync (t : Tree) (staged : Location) : (device trouble).sync staged t = (trouble .sync, t) :=
  rfl

@[simp] theorem device_close (t : Tree) (staged : Location) : (device trouble).close staged t = (trouble .close, t) :=
  rfl

@[simp] theorem device_rename (t : Tree) (staged : Location) (path : String) :
    (device trouble).rename staged path t =
      match trouble .rename, t.rename staged path with
      | some e, _ | none, .error e => (some e, t)
      | none, .ok t => (none, t) :=
  rfl

/-- A step that fails leaves the staging file, empty or filled. Otherwise it is renamed. -/
theorem publish_cases (t : Tree) (trouble : Trouble) (staged : Location) (staging path : String) (bytes : List UInt8) :
    (∃ t' f, (device trouble).publish staged staging path bytes t = (some f, t') ∧
      (t' = t ∨ t' = t.put staged (.file bytes))) ∨
    ∃ t', (device trouble).publish staged staging path bytes t = (none, t') ∧
      (∀ step, step ≠ .create → trouble step = none) ∧ (t.put staged (.file bytes)).rename staged path = .ok t' := by
  -- The steps in their order. One that fails ends the attempt.
  rcases hwrite : trouble .write with _ | e
  case some =>
    refine Or.inl ⟨t, .on "write" staging e, ?_, Or.inl rfl⟩
    simp [Device.publish, hwrite]
  rcases hpermit : trouble .permit with _ | e
  case some =>
    refine Or.inl ⟨_, .on "chmod" staging e, ?_, Or.inr rfl⟩
    simp [Device.publish, hwrite, hpermit]
  rcases hsync : trouble .sync with _ | e
  case some =>
    refine Or.inl ⟨_, .on "sync" staging e, ?_, Or.inr rfl⟩
    simp [Device.publish, hwrite, hpermit, hsync]
  rcases hclose : trouble .close with _ | e
  case some =>
    refine Or.inl ⟨_, .on "close" staging e, ?_, Or.inr rfl⟩
    simp [Device.publish, hwrite, hpermit, hsync, hclose]
  rcases hrename : trouble .rename with _ | e
  case some =>
    refine Or.inl ⟨_, .onRename staging path e, ?_, Or.inr rfl⟩
    simp [Device.publish, hwrite, hpermit, hsync, hclose, hrename]
  rcases hrenamed : (t.put staged (.file bytes)).rename staged path with e | t'
  case error =>
    refine Or.inl ⟨_, .onRename staging path e, ?_, Or.inr rfl⟩
    simp [Device.publish, hwrite, hpermit, hsync, hclose, hrename, hrenamed]
  refine Or.inr ⟨t', ?_, ?_, rfl⟩
  · simp [Device.publish, hwrite, hpermit, hsync, hclose, hrename, hrenamed]
  · intro step hstep
    cases step with
    | create => exact absurd rfl hstep
    | write => exact hwrite
    | permit => exact hpermit
    | sync => exact hsync
    | close => exact hclose
    | rename => exact hrename

theorem publish_ok (h : ∀ step, trouble step = none) (hrename : (t.put staged (.file bytes)).rename staged path = .ok t') :
    (device trouble).publish staged staging path bytes t = (none, t') := by
  simp [Device.publish, h, hrename]

/-- Nothing stands against making the staging file. -/
structure Stageable (t : Tree) (trouble : Trouble) (token path : String) (t' : Tree) (staged : Location) : Prop where
  base : ¬(Path.base path).toList.contains '/' = true
  step : trouble .create = none
  made : t.create (stagingPath token path) = .ok (t', staged)

theorem save_stageable (h : t.Stageable trouble token path t' staged) (bytes : List UInt8) :
    t.save trouble token path bytes =
      match (device trouble).publish staged (stagingPath token path) path bytes t' with
      | (none, t') => (t', none)
      | (some f, t') => (t'.erase staged, some f) := by
  have hcreate : (device trouble).create (stagingPath token path) t = (.ok staged, t') := by
    simp only [device, h.step, h.made]
  simp only [save, Device.save, if_neg h.base, bind, StateT.bind, hcreate]
  rcases (device trouble).publish staged (stagingPath token path) path bytes t' with ⟨_ | f, t''⟩ <;> rfl

theorem save_not_stageable (h : ∀ t' staged, ¬t.Stageable trouble token path t' staged) (bytes : List UInt8) :
    ∃ f, t.save trouble token path bytes = (t, some f) := by
  by_cases hbase : (Path.base path).toList.contains '/' = true
  · refine ⟨.on "createtemp" ("." ++ Path.base path ++ ".*") .slashInName, ?_⟩
    simp only [save, Device.save, if_pos hbase]
    rfl
  · have hcreate : ∃ e, (device trouble).create (stagingPath token path) t = (.error e, t) := by
      rcases hstep : trouble .create with _ | e
      · rcases hmade : t.create (stagingPath token path) with e | ⟨t', staged⟩
        · exact ⟨e, by simp only [device, hstep, hmade]⟩
        · exact absurd ⟨hbase, hstep, hmade⟩ (h t' staged)
      · exact ⟨e, by simp only [device, hstep]⟩
    obtain ⟨e, hcreate⟩ := hcreate
    refine ⟨.on "open" (stagingPath token path) e, ?_⟩
    simp only [save, Device.save, if_neg hbase, bind, StateT.bind, hcreate]
    rfl

/-! ### All or nothing -/

theorem Savable.stageable (h : t.Savable trouble token path goal) :
    ∃ staged, t.Stageable trouble token path (t.put staged (.file [])) staged ∧ t.get? staged = none := by
  obtain ⟨⟨made, staged⟩, hcreate⟩ := h.staging
  obtain ⟨-, hfree, rfl⟩ := create_eq_ok.mp hcreate
  refine ⟨staged, ⟨?_, h.steps .create, hcreate⟩, hfree⟩
  intro hslash
  have hdirectory := isDirectory_of_slash (t := t) (target_eq_ok.mp h.place).1 hslash
  rw [h.file] at hdirectory
  cases hdirectory

theorem save_savable (h : t.Savable trouble token path goal) (bytes : List UInt8) :
    t.save trouble token path bytes = (t.put goal (.file bytes), none) := by
  obtain ⟨staged, hstageable, hfree⟩ := h.stageable
  have hrename : ((t.put staged (.file [])).put staged (.file bytes)).rename staged path =
      .ok (t.put goal (.file bytes)) := by
    rw [put_put hfree, rename_staged hfree]
    exact ⟨h.file, goal, h.place, rfl⟩
  simp only [save_stageable hstageable, publish_ok h.steps hrename]

theorem save_not_savable (h : ∀ goal, ¬t.Savable trouble token path goal) (bytes : List UInt8) :
    ∃ f, t.save trouble token path bytes = (t, some f) := by
  by_cases hstage : ∃ t' staged, t.Stageable trouble token path t' staged
  · obtain ⟨t', staged, hstageable⟩ := hstage
    obtain ⟨-, hfree, rfl⟩ := create_eq_ok.mp hstageable.made
    rcases publish_cases (t.put staged (.file [])) trouble staged (stagingPath token path) path bytes with
      ⟨t', f, hpublish, hleft⟩ | ⟨t', hpublish, hsteps, hrename⟩
    · refine ⟨f, ?_⟩
      simp only [save_stageable hstageable, hpublish]
      rcases hleft with rfl | rfl
      · rw [erase_put hfree]
      · rw [put_put hfree, erase_put hfree]
    · rw [put_put hfree, rename_staged hfree] at hrename
      obtain ⟨hfile, goal, htarget, -⟩ := hrename
      refine absurd ⟨fun step => ?_, ⟨_, hstageable.made⟩, htarget, hfile⟩ (h goal)
      by_cases hstep : step = .create
      · rw [hstep, hstageable.step]
      · exact hsteps step hstep
  · exact save_not_stageable (fun t' staged hstageable => hstage ⟨t', staged, hstageable⟩) bytes

/-- A file that was saved is found at its path. -/
theorem look_saved (h : t.Savable trouble token path goal) (bytes : List UInt8) :
    (t.put goal (.file bytes)).find path = .ok goal ∧ (t.put goal (.file bytes)).get? goal = some (.file bytes) := by
  have hplace := get?_target h.place h.file
  have halike := alike_put hplace bytes
  have hget := get?_put t (.file bytes) (isAncestor_of_get? hplace)
  refine ⟨find_target (halike.target h.place) ?_ (by rw [hget]; rfl), hget⟩
  rw [← halike.isDirectory path, h.file]

theorem loadProgram_of_get? {p : Program} (hfind : t.find path = .ok goal)
    (hget : t.get? goal = some (.file (Artifact.encode p))) (hversion : p.version = 1) (hsize : p.code.size ≤ 2 ^ 30) :
    t.loadProgram path = .ok p := by
  have hopen : t.openFile path = .ok (Source.ofBytes (Artifact.encode p)) := by
    rw [openFile, look_eq_ok.mpr ⟨goal, hfind, hget⟩]
  simp only [loadProgram, hopen, Artifact.read_encode hversion hsize]
  rfl

end Tree

/-- Saving a program is all or nothing, for every tree, every path and whatever steps the device refuses. It succeeds just
if no step fails, the staging file can be made, and the path has a place that is no directory. Then the tree has changed at
that place only, where the path now leads to a file of the header and the code, and the program is read back. Otherwise the
tree is as it was before. -/
theorem save_program_all_or_nothing (t : Tree) (trouble : Trouble) (token path : String) (p : Program) :
    let saved := t.saveProgram trouble token path p
    (saved.2 = none ↔ (∀ step, trouble step = none) ∧ (∃ made, t.create (Tree.stagingPath token path) = .ok made) ∧
      (∃ l, t.target path = .ok l) ∧ t.isDirectory path = false) ∧
    (saved.2 = none → ∃ l, t.target path = .ok l ∧ saved.1.find path = .ok l ∧
      saved.1.get? l = some (.file (Artifact.header p ++ p.code.toList)) ∧ (Artifact.header p).length = 12 ∧
      (∀ l', l' ≠ l → saved.1.get? l' = t.get? l') ∧
      (p.version = 1 → p.code.size ≤ 2 ^ 30 → saved.1.loadProgram path = .ok p)) ∧
    (saved.2 ≠ none → saved.1 = t) := by
  intro saved
  by_cases h : ∃ goal, t.Savable trouble token path goal
  · obtain ⟨goal, h⟩ := h
    have hsaved : saved = (t.put goal (.file (Artifact.encode p)), none) := Tree.save_savable h _
    obtain ⟨hfind, hget⟩ := Tree.look_saved h (Artifact.encode p)
    rw [hsaved]
    refine ⟨⟨fun _ => ⟨h.steps, h.staging, ⟨goal, h.place⟩, h.file⟩, fun _ => rfl⟩, fun _ => ?_, fun hne => absurd rfl hne⟩
    refine ⟨goal, h.place, hfind, hget, Artifact.length_header p, fun l' hne => Tree.get?_put_other t _ hne, ?_⟩
    exact fun hversion hsize => Tree.loadProgram_of_get? hfind hget hversion hsize
  · obtain ⟨e, hsaved⟩ : ∃ e, saved = (t, some e) := Tree.save_not_savable (not_exists.mp h) _
    rw [hsaved]
    refine ⟨⟨fun hnone => (by cases hnone), ?_⟩, fun hnone => (by cases hnone), fun _ => rfl⟩
    rintro ⟨hsteps, hstaging, ⟨goal, hplace⟩, hfile⟩
    exact absurd ⟨goal, hsteps, hstaging, hplace, hfile⟩ h

/-- A program that replaces an older file, by a path with a way back, and one that the device refuses to sync. -/
theorem older_file_replaced :
    let t : Tree := ⟨[(["d"], .directory), (["d", "p"], .file [0x78])]⟩
    let p : Program := ⟨1, #[0x00]⟩
    (t.saveProgram (fun _ => none) "7" "d/../d/p" p).1.loadProgram "d/../d/p" = .ok p ∧
      (t.saveProgram (fun step => if step = .sync then some (.device "no space") else none) "7" "d/p" p).1 = t := by
  intro t p
  have hsaved : (t.saveProgram (fun _ => none) "7" "d/../d/p" p).2 = none := by decide +kernel
  have hrefused : (t.saveProgram (fun step => if step = .sync then some (.device "no space") else none) "7" "d/p" p).2 ≠
      none := by decide +kernel
  obtain ⟨-, hsuccess, -⟩ := save_program_all_or_nothing t (fun _ => none) "7" "d/../d/p" p
  obtain ⟨-, -, hfailure⟩ :=
    save_program_all_or_nothing t (fun step => if step = .sync then some (.device "no space") else none) "7" "d/p" p
  obtain ⟨l, -, -, -, -, -, hload⟩ := hsuccess hsaved
  exact ⟨hload rfl (by decide), hfailure hrefused⟩

end TapeCode
