import FieldOrder.CommandLine.Report
import FieldOrder.Proofs.Source.Isolation
import Mathlib.Data.List.Permutation

/-! A run on several paths, put together from the runs on each of them. A path that ends a run ends
it wherever it stands, and the first such path is the only one heard of. Without one, the outputs
follow each other in the order of the paths, and the gravest status is the status of the whole. -/
namespace FieldOrder.CommandLine

open Source

/-! ### What a status says about the output -/

theorem join_eq_empty_iff {texts : List String} : String.join texts = "" ↔
    ∀ text ∈ texts, text = "" := by
  induction texts with
  | nil => simp
  | cons text texts ih => simp [String.join_cons, String.append_eq_empty_iff, ih]

theorem findingLine_ne_empty (f : Finding Place) : findingLine f ≠ "" := by
  unfold findingLine
  cases f.kind <;> simp [String.append_eq_empty_iff]

theorem foundText_eq_empty_iff {withOrder : Bool} {v : Verdict Place} :
    foundText withOrder v = "" ↔ isFound v = false := by
  cases v with
  | error e => simp [foundText, isFound]
  | ok findings =>
    cases findings with
    | nil => simp [foundText, isFound]
    | cons f fs => simp [foundText, isFound, String.append_eq_empty_iff, findingLine_ne_empty]

theorem skippedText_eq_empty_iff {v : Verdict Place} :
    skippedText v = "" ↔ isSkipped v = false := by
  cases v with
  | error e => simp [skippedText, isSkipped, String.append_eq_empty_iff]
  | ok findings => simp [skippedText, isSkipped]

variable {vs : List (Verdict Place)}

theorem status_eq_three_iff : status vs = 3 ↔ vs.any isFound = true := by
  unfold status
  cases vs.any isFound <;> cases vs.any isSkipped <;> simp

theorem status_eq_one_iff : status vs = 1 ↔ vs.any isFound = false ∧ vs.any isSkipped = true := by
  unfold status
  cases vs.any isFound <;> cases vs.any isSkipped <;> simp

theorem status_eq_zero_iff : status vs = 0 ↔ vs.any isFound = false ∧ vs.any isSkipped = false := by
  unfold status
  cases vs.any isFound <;> cases vs.any isSkipped <;> simp

theorem stdout_report_eq_empty_iff {withOrder : Bool} :
    (report withOrder vs).stdout = "" ↔ vs.any isFound = false := by
  simp [report, join_eq_empty_iff, foundText_eq_empty_iff]

theorem stderr_report_eq_empty_iff {withOrder : Bool} :
    (report withOrder vs).stderr = "" ↔ vs.any isSkipped = false := by
  simp [report, join_eq_empty_iff, skippedText_eq_empty_iff]

def gravest (statuses : List Nat) : Nat :=
  if 3 ∈ statuses then 3 else if 1 ∈ statuses then 1 else 0

theorem status_flatten (vss : List (List (Verdict Place))) :
    status vss.flatten = gravest (vss.map status) := by
  have hthree : 3 ∈ vss.map status ↔ vss.flatten.any isFound = true := by
    simp only [List.mem_map, status_eq_three_iff, List.any_flatten, List.any_eq_true]
  cases hfound : vss.flatten.any isFound with
  | true => rw [gravest, if_pos (hthree.mpr hfound), status_eq_three_iff.mpr hfound]
  | false =>
    have hnone : ∀ vs ∈ vss, vs.any isFound = false := by
      simpa only [List.any_flatten, List.any_eq_false, Bool.not_eq_true] using hfound
    have hone : 1 ∈ vss.map status ↔ vss.flatten.any isSkipped = true := by
      simp only [List.mem_map, status_eq_one_iff, List.any_flatten, List.any_eq_true (l := vss)]
      exact exists_congr fun vs => and_congr_right fun hvs => and_iff_right (hnone vs hvs)
    rw [gravest, if_neg (by simp [hthree, hfound]), status, hfound]
    simp only [hone]
    rfl

theorem join_flatten (text : Verdict Place → String) (vss : List (List (Verdict Place))) :
    String.join (vss.flatten.map text) =
      String.join (vss.map fun vs => String.join (vs.map text)) := by
  induction vss with
  | nil => rfl
  | cons vs vss ih =>
    rw [List.flatten_cons, List.map_append, String.join_append, ih, List.map_cons, String.join_cons]

def Output.concat (outputs : List Output) : Output :=
  { status := gravest (outputs.map (·.status))
    stdout := String.join (outputs.map (·.stdout))
    stderr := String.join (outputs.map (·.stderr)) }

theorem report_flatten (withOrder : Bool) (vss : List (List (Verdict Place))) :
    report withOrder vss.flatten = .concat (vss.map (report withOrder)) := by
  simp only [report, Output.concat, status_flatten, join_flatten, List.map_map, Function.comp_def]

/-! ### Paths that end a run -/

inductive Broken : Contents → Prop
  | unreadable (e : ReadError) : Broken (.error e)
  | malformed {text : String} {e : SyntaxError} (h : Outline.ofSource text = .error e) :
    Broken (.ok text)

/-- A path that ends every run: a broken file, a directory without Go files, or one with a broken Go
file. -/
inductive IsFatal (fs : FileSystem) (path : String) : Prop
  | file {contents : Contents} (h : fs path = .file contents) (hbroken : Broken contents)
  | noFiles {files : List (String × Contents)} (h : fs path = .directory files)
    (hnone : ∀ f ∈ files, isGoFile f.1 = false)
  | goFile {files : List (String × Contents)} {name : String} {contents : Contents}
    (h : fs path = .directory files) (hfile : (name, contents) ∈ files)
    (hgo : isGoFile name = true) (hbroken : Broken contents)

def sources (fs : FileSystem) (path : String) : List (String × Contents) :=
  match fs path with
  | .file contents => [(path, contents)]
  | .directory files =>
    ((files.filter (isGoFile ·.1)).mergeSort fun a b => a.1 ≤ b.1).map fun f =>
      (joinPath path f.1, f.2)

theorem openPath_eq (fs : FileSystem) (path : String) :
    openPath fs path =
      if (sources fs path).isEmpty then .error (.noFiles path)
      else (sources fs path).mapM fun s => readFile s.1 s.2 := by
  cases h : fs path with
  | file contents =>
    cases hread : readFile path contents <;>
      simp [openPath, sources, h, hread, bind, Except.bind, pure, Except.pure]
  | directory files => simp [openPath, sources, h, List.mapM_map, Function.comp_def]

theorem exists_readFile_iff {path : String} {contents : Contents} :
    (∃ f, readFile path contents = .ok f ∧ ∃ file, f.read = .ok file) ↔ ¬ Broken contents := by
  cases contents with
  | error e => simpa [readFile] using Broken.unreadable e
  | ok text =>
    cases h : Outline.ofSource text with
    | error e => simpa [readFile, SourceFile.read, h] using Broken.malformed h
    | ok outline =>
      have hsound : ¬ Broken (.ok text) := by
        rintro ⟨⟩
        simp_all
      simpa [readFile, SourceFile.read, h] using hsound

theorem exists_candidates_iff (target : Target) {files : List SourceFile} :
    (∃ cs, Package.candidates target files = .ok cs) ↔ ∀ f ∈ files, ∃ file, f.read = .ok file := by
  rw [← exists_mapM_iff]
  simp [Package.candidates, bind_eq_ok]

theorem mapError_eq_ok {ε δ α : Type} {g : ε → δ} {x : Except ε α} {a : α} :
    x.mapError g = .ok a ↔ x = .ok a := by
  cases x <;> simp [Except.mapError]

variable {fs : FileSystem} {path : String}

theorem exists_pathCandidates_iff (target : Target) :
    (∃ cs, pathCandidates fs target path = .ok cs) ↔
      sources fs path ≠ [] ∧ ∀ s ∈ sources fs path, ¬ Broken s.2 := by
  have hread : (∃ cs, pathCandidates fs target path = .ok cs) ↔
      ∃ files, openPath fs path = .ok files ∧ ∀ f ∈ files, ∃ file, f.read = .ok file := by
    simp only [pathCandidates, bind_eq_ok, mapError_eq_ok, ← exists_candidates_iff target]
    constructor
    · rintro ⟨cs, files, hopen, hcs⟩
      exact ⟨files, hopen, cs, hcs⟩
    · rintro ⟨files, hopen, cs, hcs⟩
      exact ⟨cs, files, hopen, hcs⟩
  rw [hread, openPath_eq]
  cases hsources : sources fs path with
  | nil => simp
  | cons s ss =>
    simp only [List.isEmpty_cons, Bool.false_eq_true, if_false, exists_mapM_eq_ok,
      exists_readFile_iff]
    simp

theorem isFatal_iff :
    IsFatal fs path ↔ sources fs path = [] ∨ ∃ s ∈ sources fs path, Broken s.2 := by
  cases h : fs path with
  | file contents =>
    have hsources : sources fs path = [(path, contents)] := by simp [sources, h]
    rw [hsources]
    constructor
    · rintro (⟨h', hbroken⟩ | ⟨h', -⟩ | ⟨h', -⟩)
      · rw [h] at h'
        cases h'
        simpa using hbroken
      all_goals
        rw [h] at h'
        cases h'
    · intro hbroken
      exact .file h (by simpa using hbroken)
  | directory files =>
    have hmem {s : String × Contents} : s ∈ sources fs path ↔
        ∃ f ∈ files, isGoFile f.1 = true ∧ (joinPath path f.1, f.2) = s := by
      rw [sources, h, List.mem_map]
      simp only [(List.mergeSort_perm _ _).mem_iff, List.mem_filter, and_assoc]
    rw [List.eq_nil_iff_forall_not_mem]
    constructor
    · rintro (⟨h', -⟩ | ⟨h', hnone⟩ | ⟨h', hfile, hgo, hbroken⟩)
      all_goals
        rw [h] at h'
        cases h'
      · left
        intro s hs
        obtain ⟨f, hf, hgo, -⟩ := hmem.mp hs
        rw [hnone f hf] at hgo
        cases hgo
      · exact .inr ⟨_, hmem.mpr ⟨_, hfile, hgo, rfl⟩, hbroken⟩
    · rintro (hnone | ⟨s, hs, hbroken⟩)
      · refine .noFiles h fun f hf => ?_
        cases hgo : isGoFile f.1 with
        | false => rfl
        | true => exact absurd (hmem.mpr ⟨f, hf, hgo, rfl⟩) (hnone _)
      · obtain ⟨f, hf, hgo, rfl⟩ := hmem.mp hs
        exact .goFile h hf hgo hbroken

theorem not_isFatal_iff (target : Target) :
    ¬ IsFatal fs path ↔ ∃ cs, pathCandidates fs target path = .ok cs := by
  rw [isFatal_iff, exists_pathCandidates_iff]
  simp

/-! ### Whole runs -/

def pathVerdicts (fs : FileSystem) (environment : Option String) (o : Options) (path : String) :
    Except Fatal (List (Verdict Place)) :=
  verdicts fs environment { o with paths := [path] }

def runOn (fs : FileSystem) (environment : Option String) (o : Options) (path : String) : Output :=
  Command.execute fs environment (.run { o with paths := [path] })

/-- The first thing that ends a run on the path: the target is not known, or the path is fatal. -/
def EndsRun (fs : FileSystem) (environment : Option String) (o : Options) (path : String) : Prop :=
  (∃ e, chooseTarget o.arch environment = .error e) ∨ IsFatal fs path

variable {environment : Option String} {o : Options} {target : Target} {e : Fatal}

theorem pathVerdicts_eq_map (htarget : chooseTarget o.arch environment = .ok target)
    (path : String) :
    pathVerdicts fs environment o path =
      (pathCandidates fs target path).map (·.map (Calculator.verdict ⟨target, !o.sizesOnly⟩)) := by
  cases hpath : pathCandidates fs target path <;>
    simp [pathVerdicts, verdicts, htarget, hpath, Except.mapError, Except.map, bind, Except.bind,
      pure, Except.pure]

theorem endsRun_iff :
    EndsRun fs environment o path ↔ ∃ e, pathVerdicts fs environment o path = .error e := by
  cases htarget : chooseTarget o.arch environment with
  | error e =>
    simp [EndsRun, htarget, pathVerdicts, verdicts, Except.mapError, bind, Except.bind]
  | ok target =>
    have hfatal : ¬ IsFatal fs path ↔ ∃ cs, pathCandidates fs target path = .ok cs :=
      not_isFatal_iff target
    have hends : EndsRun fs environment o path ↔ IsFatal fs path := by simp [EndsRun, htarget]
    rw [hends, ← not_iff_not, hfatal, pathVerdicts_eq_map htarget]
    cases pathCandidates fs target path <;> simp [Except.map]

theorem verdicts_eq_map (h : o.paths ≠ []) :
    verdicts fs environment o =
      (o.paths.mapM (pathVerdicts fs environment o)).map List.flatten := by
  cases htarget : chooseTarget o.arch environment with
  | error e =>
    -- Without a path, there would be no run on a path that meets the unknown target.
    obtain ⟨path, paths, hpaths⟩ := List.exists_cons_of_ne_nil h
    simp [hpaths, pathVerdicts, verdicts, htarget, Except.mapError, Except.map, bind, Except.bind]
  | ok target =>
    rw [funext (pathVerdicts_eq_map htarget), mapM_map_right]
    cases hpaths : o.paths.mapM (pathCandidates fs target) with
    | error e => simp [verdicts, htarget, hpaths, Except.mapError, Except.map, bind, Except.bind]
    | ok css => simp [verdicts, htarget, hpaths, Except.mapError, Except.map, bind, Except.bind]

def outcome (withOrder : Bool) : Except Fatal (List (Verdict Place)) → Output
  | .ok vs => report withOrder vs
  | .error e => ⟨1, "", "maligned: " ++ e.message ++ "\n"⟩

theorem execute_eq_outcome (fs : FileSystem) (environment : Option String) (o : Options) :
    Command.execute fs environment (.run o) = outcome o.order (verdicts fs environment o) := by
  rw [Command.execute]
  cases verdicts fs environment o <;> rfl

theorem status_outcome (withOrder : Bool) (result : Except Fatal (List (Verdict Place))) :
    let output := outcome withOrder result
    (output.status = 3 ↔ output.stdout ≠ "") ∧
      (output.status = 0 ↔ output.stdout = "" ∧ output.stderr = "") := by
  cases result with
  | error e => simp [outcome, String.append_eq_empty_iff]
  | ok vs =>
    have hstatus : (report withOrder vs).status = status vs := rfl
    simp only [outcome, hstatus, ne_eq, stdout_report_eq_empty_iff, stderr_report_eq_empty_iff,
      status_eq_three_iff, status_eq_zero_iff, Bool.not_eq_false, and_self]

theorem runOn_eq_outcome (path : String) :
    runOn fs environment o path = outcome o.order (pathVerdicts fs environment o path) :=
  execute_eq_outcome ..

theorem map_runOn {paths : List String} {vss : List (List (Verdict Place))}
    (h : List.Forall₂ (fun path vs => pathVerdicts fs environment o path = .ok vs) paths vss) :
    paths.map (runOn fs environment o) = vss.map (report o.order) := by
  induction h with
  | nil => rfl
  | cons hpath _ ih =>
    rw [List.map_cons, List.map_cons, ih, runOn_eq_outcome, hpath]
    rfl

theorem not_endsRun_iff :
    ¬ EndsRun fs environment o path ↔ ∃ vs, pathVerdicts fs environment o path = .ok vs := by
  rw [endsRun_iff]
  cases pathVerdicts fs environment o path <;> simp

theorem exists_first_endsRun {paths : List String}
    (h : ∃ path ∈ paths, EndsRun fs environment o path) :
    ∃ before path after e, paths = before ++ path :: after ∧
      (∀ p ∈ before, ¬ EndsRun fs environment o p) ∧ pathVerdicts fs environment o path = .error e ∧
      paths.mapM (pathVerdicts fs environment o) = .error e := by
  cases hpaths : paths.mapM (pathVerdicts fs environment o) with
  | error e =>
    obtain ⟨before, path, after, hsplit, hbefore, hpath⟩ := mapM_eq_error.mp hpaths
    exact ⟨before, path, after, e, hsplit, fun p hp => not_endsRun_iff.mpr (hbefore p hp), hpath,
      rfl⟩
  | ok vss =>
    obtain ⟨path, hpath, hends⟩ := h
    exact absurd hends (not_endsRun_iff.mpr (exists_mapM_iff.mp ⟨vss, hpaths⟩ path hpath))

/-- A run on some paths is put together from the runs on each of them. If the target is not known or
a path is fatal, then it is the run on the first path where this is so, and reports nothing but
this. Otherwise the outputs follow each other, with status 3 if there is one, else 1 if there is
one, else 0. In any case the status is 3 if and only if something is reported, and 0 if and only if
there is no output. -/
theorem execute_of_paths (fs : FileSystem) (environment : Option String) (o : Options)
    (h : o.paths ≠ []) :
    let whole := Command.execute fs environment (.run o)
    ((∃ path ∈ o.paths, EndsRun fs environment o path) →
      ∃ before path after, o.paths = before ++ path :: after ∧
        (∀ p ∈ before, ¬ EndsRun fs environment o p) ∧ EndsRun fs environment o path ∧
        whole = runOn fs environment o path ∧ whole.status = 1 ∧ whole.stdout = "") ∧
    ((∀ path ∈ o.paths, ¬ EndsRun fs environment o path) →
      whole = .concat (o.paths.map (runOn fs environment o))) ∧
    (whole.status = 3 ↔ whole.stdout ≠ "") ∧
    (whole.status = 0 ↔ whole.stdout = "" ∧ whole.stderr = "") := by
  intro whole
  have hwhole : whole = outcome o.order (verdicts fs environment o) := execute_eq_outcome ..
  rw [verdicts_eq_map h] at hwhole
  refine ⟨?_, ?_, ?_⟩
  · intro hends
    obtain ⟨before, path, after, e, hsplit, hbefore, hpath, hpaths⟩ := exists_first_endsRun hends
    have houtcome : whole = outcome o.order (.error e) := by
      rw [hwhole, hpaths]
      rfl
    refine ⟨before, path, after, hsplit, hbefore, endsRun_iff.mpr ⟨e, hpath⟩, ?_, ?_⟩
    · rw [houtcome, runOn_eq_outcome, hpath]
    · rw [houtcome]
      exact ⟨rfl, rfl⟩
  · intro hends
    obtain ⟨vss, hpaths⟩ := exists_mapM_iff.mpr fun path hpath =>
      not_endsRun_iff.mp (hends path hpath)
    rw [hwhole, hpaths, map_runOn (mapM_eq_ok.mp hpaths)]
    exact report_flatten o.order vss
  · rw [hwhole]
    exact status_outcome _ _

/-- A file with a struct that cannot be measured, and a directory with a wasteful struct and a file
that is not looked at. -/
def smallFiles : FileSystem
  | "a.go" => .file (.ok "package a\ntype S struct\x7bx X\x7d")
  | "pkg" => .directory
    [("notes", .error .notText),
      ("b.go", .ok "package b\ntype T struct\x7bp bool;q int;r bool\x7d")]
  | _ => .file (.error .notFound)

def wasteful : Candidate Place :=
  { shape := .struct
      [⟨"p", .scalar .bool, 0⟩, ⟨"q", .scalar (.int .w64), 1⟩, ⟨"r", .scalar .bool, 2⟩]
    position := ⟨"pkg/b.go", ⟨2, 8⟩⟩
    name := some "T" }

def smallRun (paths : List String) : Options := ⟨paths, none, none, false, true⟩

/-- The run on the file skips its struct and the run on the directory reports one. The run on both
does both, and a third path between them that is not there leaves nothing of it. -/
theorem execute_of_smallFiles :
    ((smallRun ["a.go", "pkg"]).paths ≠ [] ∧
      (∀ path ∈ ["a.go", "pkg"], ¬ EndsRun smallFiles none (smallRun ["a.go", "pkg"]) path) ∧
      runOn smallFiles none (smallRun []) "a.go" =
        ⟨1, "", "a.go:2:8: cannot analyze struct: unresolved type `X`\n"⟩ ∧
      runOn smallFiles none (smallRun []) "pkg" =
        ⟨3, "pkg/b.go:2:8: struct of size 24 could be 16\n\tsuggested order: q, p, r\n", ""⟩ ∧
      Command.execute smallFiles none (.run (smallRun ["a.go", "pkg"])) =
        .concat [runOn smallFiles none (smallRun []) "a.go",
          runOn smallFiles none (smallRun []) "pkg"] ∧
      Command.execute smallFiles none (.run (smallRun ["a.go", "pkg"])) =
        ⟨3, "pkg/b.go:2:8: struct of size 24 could be 16\n\tsuggested order: q, p, r\n",
          "a.go:2:8: cannot analyze struct: unresolved type `X`\n"⟩) ∧
    (smallRun ["a.go", "gone.go", "pkg"]).paths ≠ [] ∧
      EndsRun smallFiles none (smallRun ["a.go", "gone.go", "pkg"]) "gone.go" ∧
      (Command.execute smallFiles none (.run (smallRun ["a.go", "gone.go", "pkg"]))).status = 1 ∧
      (Command.execute smallFiles none (.run (smallRun ["a.go", "gone.go", "pkg"]))).stdout =
        "" := by
  have hsound : ["a.go", "pkg"].all (fun path =>
      (pathVerdicts smallFiles none (smallRun ["a.go", "pkg"]) path).isOk) = true := by
        decide +kernel
  have hends : ∀ path ∈ ["a.go", "pkg"],
      ¬ EndsRun smallFiles none (smallRun ["a.go", "pkg"]) path := by
    intro path hpath
    rw [not_endsRun_iff]
    have hok := List.all_eq_true.mp hsound path hpath
    cases hresult : pathVerdicts smallFiles none (smallRun ["a.go", "pkg"]) path with
    | ok vs => exact ⟨vs, rfl⟩
    | error e =>
      rw [hresult] at hok
      cases hok
  have hgone : EndsRun smallFiles none (smallRun ["a.go", "gone.go", "pkg"]) "gone.go" :=
    .inr (.file rfl (.unreadable _))
  have hfound : pathCandidates smallFiles Profile.amd64.target "pkg" = .ok [wasteful] := by
    decide +kernel
  have hverdict : (Calculator.mk Profile.amd64.target true).verdict wasteful =
      .ok [⟨⟨"pkg/b.go", ⟨2, 8⟩⟩, .size, ⟨24, 0⟩, ⟨16, 0⟩, ["q", "p", "r"]⟩] := by cbv
  have hskipped : runOn smallFiles none (smallRun []) "a.go" =
      ⟨1, "", "a.go:2:8: cannot analyze struct: unresolved type `X`\n"⟩ := by decide +kernel
  have hreported : runOn smallFiles none (smallRun []) "pkg" =
      ⟨3, "pkg/b.go:2:8: struct of size 24 could be 16\n\tsuggested order: q, p, r\n", ""⟩ := by
    rw [runOn_eq_outcome, pathVerdicts_eq_map rfl, hfound]
    exact (congrArg (fun v => outcome true (.ok [v])) hverdict).trans (by decide +kernel)
  obtain ⟨-, hconcat, -⟩ := execute_of_paths smallFiles none (smallRun ["a.go", "pkg"]) (by decide)
  have hboth : Command.execute smallFiles none (.run (smallRun ["a.go", "pkg"])) = .concat
      [runOn smallFiles none (smallRun []) "a.go", runOn smallFiles none (smallRun []) "pkg"] :=
    hconcat hends
  obtain ⟨hfirst, -⟩ :=
    execute_of_paths smallFiles none (smallRun ["a.go", "gone.go", "pkg"]) (by decide)
  obtain ⟨-, -, -, -, -, -, -, hstatus, hstdout⟩ := hfirst ⟨"gone.go", by decide, hgone⟩
  refine ⟨⟨by decide, hends, hskipped, hreported, hboth, ?_⟩, by decide, hgone, hstatus, hstdout⟩
  rw [hboth, hskipped, hreported]
  decide +kernel

end FieldOrder.CommandLine
