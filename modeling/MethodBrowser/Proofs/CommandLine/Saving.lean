import Mathlib.Data.String.Basic
import MethodBrowser.CommandLine.Run
import MethodBrowser.Proofs.Image.Questions
import MethodBrowser.Proofs.Image.Reachable
import MethodBrowser.Proofs.Image.Snapshots

/-!
# A run saves all or nothing

A refactoring changes no file unless it is to be applied and all of it succeeds. Then the snapshot
holds the image that was refactored, and no other file is changed (`saves_all_or_nothing`).

**Reading changes nothing** (`Run.ReadsOnly`). Everything that a run does before it saves only
reads: the configuration, the snapshot, the plan, and the changes to the image, which are made in
memory. So a run that fails before it saves leaves the files as they are, even if the image in
memory has been changed in part.

**Saving is the last thing that can fail.** The snapshot is written as a whole or not at all, and
nothing after it fails.
-/

namespace MethodBrowser.CommandLine

variable {α β : Type}

/-! ## Actions in a row -/

theorem FileAction.runOn_bind (a : FileAction α) (f : α → FileAction β) (files : Files) :
    (a >>= f).runOn files = (f (a.runOn files).1).runOn (a.runOn files).2 := by
  change (a.bind f).runOn files = _
  induction a generalizing files with
  | done a => rfl
  | isFile path next ih => exact ih _ files
  | read path next ih => exact ih _ files
  | write path contents next ih =>
    simp only [FileAction.bind, runOn]
    cases files.write? path contents with
    | some written => exact ih true written
    | none => exact ih false files

namespace Run

/-- A step that fails ends the run. -/
theorem runOn_bind_of_error {x : Run α} {f : α → Run β} {files files' : Files} {e : RunFailure}
    (h : x.run.runOn files = (.error e, files')) :
    (x >>= f).run.runOn files = (.error e, files') := by
  rw [ExceptT.run_bind, FileAction.runOn_bind, h]
  rfl

theorem runOn_bind_of_ok {x : Run α} {f : α → Run β} {files files' : Files} {a : α}
    (h : x.run.runOn files = (.ok a, files')) :
    (x >>= f).run.runOn files = (f a).run.runOn files' := by
  rw [ExceptT.run_bind, FileAction.runOn_bind, h]

/-! ## Reading -/

/-- The run changes no file. -/
def ReadsOnly (x : Run α) : Prop := ∀ files, (x.run.runOn files).2 = files

/-- What a run that only reads comes to. -/
theorem ReadsOnly.cases {x : Run α} (h : x.ReadsOnly) (files : Files) :
    (∃ e, x.run.runOn files = (.error e, files)) ∨ ∃ a, x.run.runOn files = (.ok a, files) := by
  have hfiles := h files
  cases hx : x.run.runOn files with
  | mk result files' =>
    obtain rfl : files' = files := by rwa [hx] at hfiles
    cases result with
    | error e => exact .inl ⟨e, rfl⟩
    | ok a => exact .inr ⟨a, rfl⟩

theorem readsOnly_pure (a : α) : (pure a : Run α).ReadsOnly := fun _ => rfl

theorem ReadsOnly.bind {x : Run α} {f : α → Run β} (hx : x.ReadsOnly)
    (hf : ∀ a, (f a).ReadsOnly) : (x >>= f).ReadsOnly := by
  intro files
  rcases hx.cases files with ⟨e, he⟩ | ⟨a, ha⟩
  · rw [runOn_bind_of_error he]
  · rw [runOn_bind_of_ok ha]
    exact hf a files

theorem runOn_lift_ok (a : α) (files : Files) : (lift (.ok a)).run.runOn files = (.ok a, files) :=
  rfl

theorem readsOnly_lift (result : Except Failure α) : (lift result).ReadsOnly := fun _ => rfl

theorem readsOnly_read (role : FileRole) (path : String) : (read role path).ReadsOnly := by
  intro files
  change (FileAction.runOn (FileAction.read path _) files).2 = files
  rw [FileAction.runOn]
  cases files.read? path <;> rfl

theorem readsOnly_load (role : FileRole) (parse? : String → Option α) (path : String) :
    (load role parse? path).ReadsOnly := by
  refine (readsOnly_read role path).bind fun text => ?_
  cases parse? text <;> exact fun _ => rfl

theorem readsOnly_firstFile (paths : List String) : (firstFile paths).ReadsOnly := by
  induction paths with
  | nil => exact readsOnly_pure none
  | cons path paths ih =>
    intro files
    change (FileAction.runOn (FileAction.isFile path _) files).2 = files
    rw [FileAction.runOn]
    cases (files.read? path).isSome with
    | true => rfl
    | false => exact ih files

/-- A file that is loaded can be read and understood. -/
theorem load_eq_ok {role : FileRole} {parse? : String → Option α} {path : String} {files : Files}
    {a : α} :
    (load role parse? path).run.runOn files = (.ok a, files) ↔
      ∃ text, files.read? path = some text ∧ parse? text = some a := by
  cases hread : files.read? path with
  | none =>
    have hfail : (read role path).run.runOn files = (.error (.unreadable role path), files) := by
      change FileAction.runOn (FileAction.read path _) files = _
      rw [FileAction.runOn, hread]
      rfl
    rw [load, runOn_bind_of_error hfail]
    simp
  | some text =>
    have hdone : (read role path).run.runOn files = (.ok text, files) := by
      change FileAction.runOn (FileAction.read path _) files = _
      rw [FileAction.runOn, hread]
      rfl
    rw [load, runOn_bind_of_ok hdone]
    cases hparse : parse? text with
    | none =>
      change (Except.error _, files) = _ ↔ _
      simp [hparse]
    | some b =>
      change (Except.ok b, files) = _ ↔ _
      simp [hparse]

/-! ## Writing -/

theorem runOn_write (role : FileRole) (path contents : String) (files : Files) :
    (write role path contents).run.runOn files =
      match files.write? path contents with
      | some written => (.ok (), written)
      | none => (.error (.unwritable role path), files) := by
  change FileAction.runOn (FileAction.write path contents _) files = _
  rw [FileAction.runOn]
  cases files.write? path contents <;> rfl

end Run

/-! ## Locations -/

theorem splitOnAux_of_notMem (seen : List Char) {rest : List Char} (h : '/' ∉ rest) :
    (String.ofList (seen ++ rest)).splitOnAux "/" 0 ⟨String.utf8Len seen⟩ 0 [] =
      [String.ofList (seen ++ rest)] := by
  induction rest generalizing seen with
  | nil =>
    have hall := String.extract_of_valid [] seen []
    rw [String.splitOnAux, if_pos ((String.atEnd_of_valid seen []).2 rfl)]
    simpa using hall
  | cons c rest ih =>
    rw [List.mem_cons, not_or] at h
    have hmore : ¬String.Pos.Raw.atEnd (String.ofList (seen ++ c :: rest))
        ⟨String.utf8Len seen⟩ = true := by
      rw [String.atEnd_of_valid]
      exact List.cons_ne_nil c rest
    have hhead : (String.Pos.Raw.get (String.ofList (seen ++ c :: rest)) ⟨String.utf8Len seen⟩ ==
        String.Pos.Raw.get "/" 0) = false := by
      rw [String.get_of_valid]
      exact beq_eq_false_iff_ne.2 (Ne.symm h.1)
    have hnext : String.Pos.Raw.next (String.ofList (seen ++ c :: rest))
        ⟨String.utf8Len seen⟩ = ⟨String.utf8Len (seen ++ [c])⟩ := by
      rw [String.next_of_valid, String.utf8Len_append]
      simp
    have hrec := ih (seen ++ [c]) h.2
    rw [List.append_assoc, List.singleton_append, ← hnext] at hrec
    rw [String.splitOnAux, if_neg hmore, hhead, if_neg Bool.false_ne_true]
    exact hrec

/-- A path with no slash has one part. -/
theorem splitOn_of_notMem {path : String} (h : '/' ∉ path.toList) : path.splitOn "/" = [path] := by
  have hpath := splitOnAux_of_notMem [] h
  rw [List.nil_append, String.ofList_toList] at hpath
  rw [String.splitOn, if_neg (by decide)]
  exact hpath

namespace Files

variable {files : Files}

/-- A plain name leads into the working directory. -/
theorem locate_name {name : String} (hslash : '/' ∉ name.toList)
    (hname : name ≠ "" ∧ name ≠ "." ∧ name ≠ "..")
    (hdirectory : files.isDirectory files.workingDirectory = true) :
    files.locate name = some (files.workingDirectory ++ [name]) := by
  have hstart : name.toList.head? ≠ some '/' := fun heq => hslash (List.mem_of_head? heq)
  simp only [locate, if_neg hname.1, if_neg hstart, splitOn_of_notMem hslash]
  simp [follow, hdirectory, hname]

/-- Writing to a file moves nothing. -/
theorem locate_put (files : Files) (l : Location) (contents path : String) :
    (files.put l contents).locate path = files.locate path := by
  have hfollow : ∀ (parts : List String) (m : Location),
      (files.put l contents).follow m parts = files.follow m parts := by
    intro parts
    induction parts with
    | nil => intro m; rfl
    | cons part parts ih =>
      intro m
      have hdirectory : (files.put l contents).isDirectory m = files.isDirectory m := rfl
      rw [follow, follow, hdirectory, ih, ih, ih]
  rw [locate, locate]
  simp only [hfollow]
  rfl

theorem write?_eq_some {path contents : String} {written : Files} :
    files.write? path contents = some written ↔
      ∃ l, files.locate path = some l ∧ files.isWritable l = true ∧
        written = files.put l contents := by
  rw [write?]
  cases files.locate path with
  | none => simp
  | some l =>
    cases hwritable : files.isWritable l with
    | false => simp [hwritable]
    | true =>
      simp only [hwritable, if_true, Option.some.injEq]
      constructor
      · rintro rfl
        exact ⟨l, rfl, hwritable, rfl⟩
      · rintro ⟨l', rfl, -, rfl⟩
        rfl

/-- What is written is read back. -/
theorem read?_put {path contents : String} {l : Location} (h : files.locate path = some l) :
    (files.put l contents).read? path = some contents := by
  rw [read?, locate_put, h]
  simp [put]

end Files

/-! ## Refactorings -/

theorem readsOnly_loadConfig (env : Environment) (asked : Option String) :
    (loadConfig env asked).ReadsOnly := by
  cases asked with
  | some path => exact Run.readsOnly_load _ _ _
  | none =>
    refine (Run.readsOnly_firstFile env.configPaths).bind fun found => ?_
    cases found with
    | none => exact Run.readsOnly_pure _
    | some path => exact Run.readsOnly_load _ _ _

theorem readsOnly_loadImage (path : String) : (loadImage path).ReadsOnly := Run.readsOnly_load _ _ _

theorem loadImage_eq_ok {path : String} {files : Files} {image : Image} :
    (loadImage path).run.runOn files = (.ok image, files) ↔
      ∃ text, files.read? path = some text ∧ Image.ofSnapshot text = .ok image := by
  have hoption : ∀ text, (Image.ofSnapshot text).toOption = some image ↔
      Image.ofSnapshot text = .ok image := by
    intro text
    cases Image.ofSnapshot text <;> simp [Except.toOption]
  rw [loadImage, Run.load_eq_ok]
  simp only [hoption]

/-- What is saved is read back as the image. -/
theorem ofSnapshot_saved (image : Image) :
    Image.ofSnapshot (image.snapshot ++ "\n") = .ok image := by
  refine image.ofSnapshot_snapshot_append fun c hc => ?_
  obtain rfl : c = '\n' := by simpa using hc
  rfl

section Refactor

variable {settings : Settings} {format : Format} {snapshot : String} {request : Refactoring.Request}

/-- A refactoring that is not applied only reads. -/
theorem readsOnly_preview : (refactor settings format snapshot false request).ReadsOnly := by
  refine (readsOnly_loadImage snapshot).bind fun image => ?_
  exact (Run.readsOnly_lift _).bind fun plan => Run.readsOnly_pure _

/-- A refactoring that succeeds on the image that is loaded replaces the snapshot, if it may be
written. -/
theorem refactor_eq_ok {files : Files} {image image' : Image} {applied : Refactoring.Applied}
    {l : Location} (format : Format)
    (himage : (loadImage snapshot).run.runOn files = (.ok image, files))
    (happly : Refactoring.apply ⟨image, []⟩ settings request = (image', .ok applied))
    (hl : files.locate snapshot = some l) (hwritable : files.isWritable l = true) :
    (refactor settings format snapshot true request).run.runOn files =
      (.ok (render format Refactoring.Applied.toJson appliedText applied),
        files.put l (image'.snapshot ++ "\n")) := by
  have hsave : (saveImage image' snapshot).run.runOn files =
      (.ok (), files.put l (image'.snapshot ++ "\n")) := by
    rw [saveImage, Run.runOn_write, Files.write?_eq_some.2 ⟨l, hl, hwritable, rfl⟩]
  rw [refactor, Run.runOn_bind_of_ok himage]
  simp only [if_true, happly]
  rw [Run.runOn_bind_of_ok (Run.runOn_lift_ok applied files), Run.runOn_bind_of_ok hsave]
  rfl

/-- A refactoring that is applied fails and leaves the files as they are, or succeeds and replaces
the snapshot. -/
theorem refactor_cases (settings : Settings) (format : Format) (snapshot : String)
    (request : Refactoring.Request) (files : Files) :
    (∃ e, (refactor settings format snapshot true request).run.runOn files = (.error e, files)) ∨
      ∃ image image' applied l,
        (loadImage snapshot).run.runOn files = (.ok image, files) ∧
        Refactoring.apply ⟨image, []⟩ settings request = (image', .ok applied) ∧
        files.locate snapshot = some l ∧
        (refactor settings format snapshot true request).run.runOn files =
          (.ok (render format Refactoring.Applied.toJson appliedText applied),
            files.put l (image'.snapshot ++ "\n")) := by
  rcases (readsOnly_loadImage snapshot).cases files with ⟨e, he⟩ | ⟨image, himage⟩
  · exact .inl ⟨e, Run.runOn_bind_of_error he⟩
  · cases happly : Refactoring.apply ⟨image, []⟩ settings request with
    | mk image' result =>
      cases result with
      | error failure =>
        rw [refactor, Run.runOn_bind_of_ok himage]
        simp only [if_true, happly]
        exact .inl ⟨.refactoring failure, rfl⟩
      | ok applied =>
        cases hwrite : files.write? snapshot (image'.snapshot ++ "\n") with
        | none =>
          have hsave : (saveImage image' snapshot).run.runOn files =
              (.error (.unwritable .snapshot snapshot), files) := by
            rw [saveImage, Run.runOn_write, hwrite]
          rw [refactor, Run.runOn_bind_of_ok himage]
          simp only [if_true, happly]
          rw [Run.runOn_bind_of_ok (Run.runOn_lift_ok applied files)]
          exact .inl ⟨_, Run.runOn_bind_of_error hsave⟩
        | some written =>
          obtain ⟨l, hl, hwritable, -⟩ := Files.write?_eq_some.1 hwrite
          exact .inr ⟨image, image', applied, l, himage, happly, hl,
            refactor_eq_ok format himage happly hl hwritable⟩

end Refactor

/-- A refactoring that is only previewed, or that fails, changes no file. One that is applied and
succeeds replaces the snapshot by that of the refactored image, which is loaded from it again, and
changes no other file. -/
theorem saves_all_or_nothing (env : Environment) (files : Files) (invocation : Invocation)
    (snapshot : String) (apply : Bool) (request : Refactoring.Request)
    (hcommand : invocation.command = .refactor snapshot apply request) :
    (apply = false ∨ (∃ e, ((invocation.run env).run.runOn files).1 = .error e) →
      ((invocation.run env).run.runOn files).2 = files) ∧
    ∀ output files', apply = true → (invocation.run env).run.runOn files = (.ok output, files') →
      ∃ config image image' applied l,
        (loadConfig env invocation.config).run.runOn files = (.ok config, files) ∧
        (loadImage snapshot).run.runOn files = (.ok image, files) ∧
        Refactoring.apply ⟨image, []⟩
          { config.settings with
            senderExampleLimit :=
              invocation.senderExamples.getD config.settings.senderExampleLimit }
          request = (image', .ok applied) ∧
        files.locate snapshot = some l ∧
        files' = files.put l (image'.snapshot ++ "\n") ∧
        files'.contents l = some (image'.snapshot ++ "\n") ∧
        (∀ m, m ≠ l → files'.contents m = files.contents m) ∧
        (loadImage snapshot).run.runOn files' = (.ok image', files') := by
  rcases (readsOnly_loadConfig env invocation.config).cases files with ⟨e, he⟩ | ⟨config, hconfig⟩
  · have hfail : (invocation.run env).run.runOn files = (.error e, files) :=
      Run.runOn_bind_of_error he
    rw [hfail]
    exact ⟨fun _ => rfl, fun output files' _ h => by simp at h⟩
  · rw [Invocation.run, Run.runOn_bind_of_ok hconfig, hcommand]
    simp only [Command.run]
    cases apply with
    | false => exact ⟨fun _ => readsOnly_preview files, fun _ _ h => by simp at h⟩
    | true =>
      rcases refactor_cases
          { config.settings with
            senderExampleLimit :=
              invocation.senderExamples.getD config.settings.senderExampleLimit }
          (invocation.format.getD config.format) snapshot request files with
        ⟨e, he⟩ | ⟨image, image', applied, l, himage, happly, hl, hrun⟩
      · rw [he]
        exact ⟨fun _ => rfl, fun output files' _ h => by simp at h⟩
      · rw [hrun]
        refine ⟨fun h => by simp at h, fun output files' _ h => ?_⟩
        obtain ⟨-, rfl⟩ := Prod.mk.inj h
        have hagain := ofSnapshot_saved image'
        refine ⟨config, image, image', applied, l, hconfig, himage, happly, hl, rfl,
          by simp [Files.put], fun m hm => by simp [Files.put, hm], ?_⟩
        exact loadImage_eq_ok.2 ⟨_, Files.read?_put hl, hagain⟩

/-- The files of one directory, by name. -/
def Files.flat (entries : List (String × String)) : Files where
  workingDirectory := []
  isDirectory l := l == []
  contents
    | [name] => entries.lookup name
    | _ => none
  isWritable _ := true

/-- Renames a method of the snapshot `image.json`. -/
def renameValue : Invocation :=
  ⟨some "gemtalk.toml", none, none, 0,
    .refactor "image.json" true
      (.renameMethod ⟨"Counter", .instanceSide, "value", "count", false⟩)⟩

/-- An empty configuration and the snapshot of an image. -/
def counterFiles : Files :=
  .flat [("gemtalk.toml", ""), ("image.json", Image.counter.snapshot ++ "\n")]

theorem saves_all_or_nothing_counter :
    ∃ output files' image' applied,
      (renameValue.run ⟨[], none⟩).run.runOn counterFiles = (.ok output, files') ∧
      Refactoring.apply ⟨.counter, []⟩ .standard
        (.renameMethod ⟨"Counter", .instanceSide, "value", "count", false⟩) =
          (image', .ok applied) ∧
      files'.contents ["image.json"] = some (image'.snapshot ++ "\n") ∧
      files'.contents ["gemtalk.toml"] = some "" ∧
      (loadImage "image.json").run.runOn files' = (.ok image', files') := by
  obtain ⟨image', applied, happly⟩ := exists_eq_ok (x := Refactoring.apply ⟨.counter, []⟩ .standard
    (.renameMethod ⟨"Counter", .instanceSide, "value", "count", false⟩)) (by decide +kernel)
  have hconfigPath : counterFiles.locate "gemtalk.toml" = some ["gemtalk.toml"] :=
    Files.locate_name (by decide) (by decide) rfl
  have himagePath : counterFiles.locate "image.json" = some ["image.json"] :=
    Files.locate_name (by decide) (by decide) rfl
  have hconfig : (loadConfig ⟨[], none⟩ renameValue.config).run.runOn counterFiles =
      (.ok .standard, counterFiles) :=
    Run.load_eq_ok.2 ⟨"", by rw [Files.read?, hconfigPath]; rfl, by decide +kernel⟩
  have himage : (loadImage "image.json").run.runOn counterFiles = (.ok .counter, counterFiles) :=
    loadImage_eq_ok.2 ⟨Image.counter.snapshot ++ "\n", by rw [Files.read?, himagePath]; rfl,
      ofSnapshot_saved .counter⟩
  have hrun : (renameValue.run ⟨[], none⟩).run.runOn counterFiles =
      (.ok (render .json Refactoring.Applied.toJson appliedText applied),
        counterFiles.put ["image.json"] (image'.snapshot ++ "\n")) := by
    rw [Invocation.run, Run.runOn_bind_of_ok hconfig]
    exact refactor_eq_ok .json himage happly himagePath rfl
  obtain ⟨config, image, image₁, applied₁, l, hconfig', himage', happly', hl, -, hcontents, hothers,
    hagain⟩ := (saves_all_or_nothing _ _ renameValue _ _ _ rfl).2 _ _ rfl hrun
  obtain rfl : Config.standard = config := by simpa using hconfig.symm.trans hconfig'
  obtain rfl : Image.counter = image := by simpa using himage.symm.trans himage'
  obtain ⟨rfl, -⟩ := Prod.mk.inj (happly.symm.trans happly')
  obtain rfl : ["image.json"] = l := by simpa using himagePath.symm.trans hl
  exact ⟨_, _, image', applied, hrun, happly, hcontents, hothers ["gemtalk.toml"] (by decide),
    hagain⟩

end MethodBrowser.CommandLine
