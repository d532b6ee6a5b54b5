import Alternation.Cli.Run
import Alternation.Proofs.Cli.Files
import Alternation.Proofs.Path.Sibling

/-!
# What a batch writes

A batch run first checks that every listed path names an existing file; the first that does not
fails the run, and nothing is written. Then it converts the files in order: a file that is blank
once trailing blanks are dropped is skipped, and the pattern of any other is written to its output
path.

The files are read one after another while outputs are written, so an output may replace a file
listed later before that file is read: the batch `a.txt`, `a.triex.txt` converts the pattern of
`a.txt` twice (`runBatch_rereads_overwritten_input`). Provided no listed file is the output of a
file with content listed before it (`NoClobber`), every file is read as it was before the run,
and the run leaves the pattern of each file with content at its output path and every other path
as it was.

The run is followed file by file with `Converted`, what converting some files may leave:
`convertFile_converted` is the step, `Converted.cons` joins a step to the rest of the run, and
`forM_convertFile_converted` is the run.

Main results:

* `runBatch_writes_patterns`: a batch fails on the first missing file, and otherwise writes the
  pattern of each file with content to its output path and changes no other path.
* `runBatch_rereads_overwritten_input`: an output that replaces a later input.
-/

namespace Alternation

namespace Cli

open Workspace Alternation.Path

/-- A run of a command on a workspace. -/
abbrev InWorkspace := ExceptT Failure (StateM Workspace)

/-! ## Running the steps of a batch -/

section Steps

variable {α β : Type} {x : InWorkspace α} {k : α → InWorkspace β} {w w' w'' : Workspace}

theorem run_bind_of_ok {a : α} (h : x.run.run w = (.ok a, w')) :
    (x >>= k).run.run w = (k a).run.run w' := by
  rw [ExceptT.run_bind, StateT.run_bind, h]
  rfl

theorem run_bind_of_error {e : Failure} (h : x.run.run w = (.error e, w')) :
    (x >>= k).run.run w = (.error e, w') := by
  rw [ExceptT.run_bind, StateT.run_bind, h]
  rfl

theorem exists_of_run_bind_eq_ok {b : β} (h : (x >>= k).run.run w = (.ok b, w'')) :
    ∃ a w', x.run.run w = (.ok a, w') ∧ (k a).run.run w' = (.ok b, w'') := by
  cases hx : x.run.run w with
  | mk r w' =>
    cases r with
    | error e =>
      rw [run_bind_of_error hx] at h
      cases h
    | ok a =>
      rw [run_bind_of_ok hx] at h
      exact ⟨a, w', rfl, h⟩

end Steps

/-! ## The file operations on a workspace -/

theorem isFile_run (f : String) (w : Workspace) :
    (FileSystem.isFile f : StateM Workspace Bool).run w = ((w.read? f).isSome, w) := rfl

theorem readFile?_run (f : String) (w : Workspace) :
    (FileSystem.readFile? f : StateM Workspace (Option String)).run w = (w.read? f, w) := rfl

theorem writeFile_run (p text : String) (w : Workspace) :
    (FileSystem.writeFile p text : StateM Workspace Bool).run w =
      match w.write? p text with
      | some w' => (true, w')
      | none => (false, w) := by
  show (match w.write? p text with
    | some w' => ((fun _ => true) <$> set w' : StateM Workspace Bool)
    | none => pure false).run w = _
  cases w.write? p text <;> rfl

theorem run_liftM_bind {α β : Type} (x : StateM Workspace α) (k : α → InWorkspace β)
    (w : Workspace) :
    (liftM x >>= k : InWorkspace β).run.run w = (k (x.run w).1).run.run (x.run w).2 :=
  run_bind_of_ok rfl

/-! ## The steps of a batch -/

theorem run_checkFiles_of_exist {files : List String} {w : Workspace}
    (h : ∀ f ∈ files, (w.read? f).isSome = true) :
    (checkFiles files : InWorkspace Unit).run.run w = (.ok (), w) := by
  induction files with
  | nil => rfl
  | cons f rest ih =>
    rw [checkFiles, run_liftM_bind, isFile_run]
    dsimp only
    rw [h f List.mem_cons_self, if_pos rfl]
    exact ih fun g hg => h g (List.mem_cons_of_mem f hg)

theorem run_checkFiles_of_missing {pre post : List String} {f : String} {w : Workspace}
    (hpre : ∀ g ∈ pre, (w.read? g).isSome = true) (hf : w.read? f = none) :
    (checkFiles (pre ++ f :: post) : InWorkspace Unit).run.run w =
      (.error (Failure.of (.plain ("File does not exist: " ++ f))), w) := by
  induction pre with
  | nil =>
    rw [List.nil_append, checkFiles, run_liftM_bind, isFile_run]
    dsimp only
    rw [hf]
    rfl
  | cons g rest ih =>
    rw [List.cons_append, checkFiles, run_liftM_bind, isFile_run]
    dsimp only
    rw [hpre g List.mem_cons_self, if_pos rfl]
    exact ih fun g' hg' => hpre g' (List.mem_cons_of_mem g hg')

/-- Converting one file of a batch: it is read, skipped when blank after dropping trailing
    blanks, and otherwise its pattern is written to its output path. -/
theorem run_convertFile (s : Settings) (json : Bool) (f : String) (w : Workspace) :
    (convertFile s json f : InWorkspace Unit).run.run w =
      match w.read? f with
      | none => (.error ⟨["Failed to read input file: " ++ f], .io⟩, w)
      | some c =>
        if (Text.trimEnd c).isEmpty then (.ok (), w)
        else
          match patternText (Text.trimEnd c) s json with
          | .error e => (.error (e.within ("Failed to convert " ++ f)), w)
          | .ok text =>
            match w.write? (outputPath f s.suffix) text with
            | some w' => (.ok (), w')
            | none => (.error ⟨["Failed to write output file: " ++ outputPath f s.suffix], .io⟩, w) := by
  rw [convertFile, readInput, bind_assoc, run_liftM_bind, readFile?_run]
  dsimp only
  cases w.read? f with
  | none => rfl
  | some c =>
    rw [pure_bind]
    dsimp only
    by_cases hblank : (Text.trimEnd c).isEmpty = true
    · rw [if_pos hblank, if_pos hblank]
      rfl
    · rw [if_neg hblank, if_neg hblank]
      cases patternText (Text.trimEnd c) s json with
      | error e => rfl
      | ok text =>
        dsimp only
        rw [run_liftM_bind, writeFile_run]
        cases w.write? (outputPath f s.suffix) text <;> rfl

theorem run_checkFiles_eq_ok_iff {files : List String} {w w' : Workspace} :
    (checkFiles files : InWorkspace Unit).run.run w = (.ok (), w') ↔
      (∀ f ∈ files, (w.read? f).isSome = true) ∧ w' = w := by
  constructor
  · intro h
    induction files with
    | nil =>
      cases h
      exact ⟨fun _ hf => absurd hf List.not_mem_nil, rfl⟩
    | cons f rest ih =>
      rw [checkFiles, run_liftM_bind, isFile_run] at h
      dsimp only at h
      cases hf : (w.read? f).isSome with
      | false =>
        rw [hf] at h
        cases h
      | true =>
        rw [hf, if_pos rfl] at h
        obtain ⟨hrest, rfl⟩ := ih h
        exact ⟨List.forall_mem_cons.2 ⟨hf, hrest⟩, rfl⟩
  · rintro ⟨hall, rfl⟩
    exact run_checkFiles_of_exist hall

theorem exists_of_patternText_eq_ok {raw text : String} {s : Settings} {json : Bool}
    (h : patternText raw s json = .ok text) :
    ∃ t, Ingest.trie raw s json = .ok t ∧ text = t.pattern s.boundary s.capturing ++ "\n" := by
  unfold patternText at h
  cases ht : Ingest.trie raw s json with
  | error e =>
    rw [ht] at h
    cases h
  | ok t =>
    rw [ht] at h
    exact ⟨t, rfl, (Except.ok.inj h).symm⟩

/-! ## What converting files leaves -/

/-- What converting the files `files` from the workspace `w` may leave in `w'`: the same
    directories, the pattern of each file with content at the file's output path, and every
    other path as it was. -/
def Converted (s : Settings) (json : Bool) (w : Workspace) (files : List String)
    (w' : Workspace) : Prop :=
  w'.isDirectory = w.isDirectory ∧
  (∀ f ∈ files, ∀ c, w.read? f = some c → (Text.trimEnd c).isEmpty = false →
    ∃ text, patternText (Text.trimEnd c) s json = .ok text ∧
      w'.read? (outputPath f s.suffix) = some text) ∧
  ∀ p, (∀ f ∈ files, ∀ c, w.read? f = some c → (Text.trimEnd c).isEmpty = false →
      w.resolve p ≠ w.resolve (outputPath f s.suffix)) → w'.read? p = w.read? p

/-- No file of a batch is the output file of a file with content listed before it. -/
def NoClobber (w : Workspace) (suffix : String) (files : List String) : Prop :=
  files.Pairwise fun f g => ∀ c, w.read? f = some c → (Text.trimEnd c).isEmpty = false →
    w.resolve (outputPath f suffix) ≠ w.resolve g

variable {s : Settings} {json : Bool}

theorem converted_nil (w : Workspace) : Converted s json w [] w :=
  ⟨rfl, fun _ hf => absurd hf List.not_mem_nil, fun _ _ => rfl⟩

theorem Converted.resolve_eq {w w' : Workspace} {files : List String}
    (h : Converted s json w files w') : w'.resolve = w.resolve := by
  funext q
  rw [resolve, resolve, h.1]

theorem Converted.read?_eq {w w' : Workspace} {f g : String} (h : Converted s json w [f] w')
    (hg : ∀ c, w.read? f = some c → (Text.trimEnd c).isEmpty = false →
      w.resolve (outputPath f s.suffix) ≠ w.resolve g) : w'.read? g = w.read? g := by
  refine h.2.2 g fun f' hf' c hc hne => ?_
  rw [List.mem_singleton] at hf'
  subst hf'
  exact (hg c hc hne).symm

theorem converted_of_blank {f c : String} {w : Workspace} (hread : w.read? f = some c)
    (hblank : (Text.trimEnd c).isEmpty = true) : Converted s json w [f] w := by
  refine ⟨rfl, fun g hg c' hc' hne => ?_, fun _ _ => rfl⟩
  rw [List.mem_singleton] at hg
  subst hg
  rw [hread, Option.some.injEq] at hc'
  subst hc'
  rw [hblank] at hne
  cases hne

theorem converted_of_write? {f c text : String} {w w' : Workspace} (hread : w.read? f = some c)
    (hne : (Text.trimEnd c).isEmpty = false)
    (hpat : patternText (Text.trimEnd c) s json = .ok text)
    (hw : w.write? (outputPath f s.suffix) text = some w') : Converted s json w [f] w' := by
  obtain ⟨cs, hdir, hcs, -, -, -⟩ := write?_eq_some hw
  refine ⟨funext (isDirectory_write hw), fun g hg c' hc' _ => ?_, fun p hp => ?_⟩
  · rw [List.mem_singleton] at hg
    subst hg
    rw [hread, Option.some.injEq] at hc'
    subst hc'
    refine ⟨text, hpat, ?_⟩
    rw [read?_write hw hcs, if_pos ⟨hcs, hdir⟩]
  · have hother := hp f List.mem_cons_self c hread hne
    rw [read?_write hw hcs, if_neg fun h => hother (h.1.trans hcs.symm)]

theorem convertFile_converted {f : String} {w w' : Workspace}
    (h : (convertFile s json f : InWorkspace Unit).run.run w = (.ok (), w')) :
    Converted s json w [f] w' := by
  rw [run_convertFile] at h
  cases hread : w.read? f with
  | none =>
    rw [hread] at h
    cases h
  | some c =>
    rw [hread] at h
    dsimp only at h
    by_cases hblank : (Text.trimEnd c).isEmpty = true
    · rw [if_pos hblank] at h
      cases h
      exact converted_of_blank hread hblank
    · rw [if_neg hblank] at h
      cases hpat : patternText (Text.trimEnd c) s json with
      | error e =>
        rw [hpat] at h
        cases h
      | ok text =>
        rw [hpat] at h
        dsimp only at h
        cases hw : w.write? (outputPath f s.suffix) text with
        | none =>
          rw [hw] at h
          cases h
        | some w₁ =>
          rw [hw] at h
          cases h
          exact converted_of_write? hread (by simpa using hblank) hpat hw

section Join

variable {f : String} {rest : List String} {w w₁ w' : Workspace}

/-- After a file and then the files after it are converted, the output of the file holds its
    pattern: a later file that writes the same output is the same file, and writes the same
    text. -/
theorem read?_outputPath_of_converted (hsuffix : s.suffix.toList ≠ [])
    (hslash : '/' ∉ s.suffix.toList) {c text : String} (hc : w.read? f = some c)
    (hpat : patternText (Text.trimEnd c) s json = .ok text)
    (htext : w₁.read? (outputPath f s.suffix) = some text) (hres₁ : w₁.resolve = w.resolve)
    (hread₁ : ∀ g ∈ rest, w₁.read? g = w.read? g) (hrest : Converted s json w₁ rest w') :
    w'.read? (outputPath f s.suffix) = some text := by
  have hres' := hrest.resolve_eq
  obtain ⟨-, hout', hframe'⟩ := hrest
  by_cases hlater : ∃ g ∈ rest, ∃ c', w₁.read? g = some c' ∧ (Text.trimEnd c').isEmpty = false ∧
      w₁.resolve (outputPath f s.suffix) = w₁.resolve (outputPath g s.suffix)
  · obtain ⟨g, hg, c', hc', hne', hsame⟩ := hlater
    obtain ⟨text', hpat', htext'⟩ := hout' g hg c' hc' hne'
    have hsome : (w.resolve (outputPath f s.suffix)).isSome = true := by
      obtain ⟨-, X, hX⟩ := exists_of_read?_eq_some htext
      rw [← hres₁, hX]
      rfl
    have hcc : c = c' := by
      rw [hread₁ g hg] at hc'
      rw [hres₁] at hsame
      exact eq_of_resolve_outputPath_eq hsuffix hslash hc hc' hsame hsome
    have htt : text = text' := by
      rw [← hcc, hpat] at hpat'
      exact Except.ok.inj hpat'
    obtain ⟨hdirf, -⟩ := exists_of_read?_eq_some htext
    obtain ⟨hdirg, -⟩ := exists_of_read?_eq_some htext'
    rw [htt, ← htext']
    exact read?_eq_of_resolve hdirf hdirg (by rw [hres', hsame])
  · -- no later file writes the output again
    rw [hframe' _ fun g hg c' hc' hne' hsame => hlater ⟨g, hg, c', hc', hne', hsame⟩, htext]

/-- Converting a file and then the files after it, none of which is the file's output,
    converts them all. -/
theorem Converted.cons (hsuffix : s.suffix.toList ≠ []) (hslash : '/' ∉ s.suffix.toList)
    (hf : Converted s json w [f] w₁)
    (hkeep : ∀ g ∈ rest, ∀ c, w.read? f = some c → (Text.trimEnd c).isEmpty = false →
      w.resolve (outputPath f s.suffix) ≠ w.resolve g)
    (hrest : Converted s json w₁ rest w') : Converted s json w (f :: rest) w' := by
  have hres₁ := hf.resolve_eq
  have hread₁ : ∀ g ∈ rest, w₁.read? g = w.read? g := fun g hg => hf.read?_eq (hkeep g hg)
  refine ⟨hrest.1.trans hf.1, fun g hg c hc hne => ?_, fun p hp => ?_⟩
  · rcases List.mem_cons.1 hg with rfl | hg
    · obtain ⟨text, hpat, htext⟩ := hf.2.1 g (List.mem_singleton_self g) c hc hne
      exact ⟨text, hpat,
        read?_outputPath_of_converted hsuffix hslash hc hpat htext hres₁ hread₁ hrest⟩
    · rw [← hread₁ g hg] at hc
      exact hrest.2.1 g hg c hc hne
  · -- a path that is no output reads as before both steps
    have hp₁ : w₁.read? p = w.read? p := hf.2.2 p fun f' hf' c hc hne => by
      rw [List.mem_singleton] at hf'
      subst hf'
      exact hp f' List.mem_cons_self c hc hne
    rw [← hp₁]
    refine hrest.2.2 p fun g hg c hc hne => ?_
    rw [hread₁ g hg] at hc
    rw [hres₁]
    exact hp g (List.mem_cons_of_mem f hg) c hc hne

end Join

/-- A run over files none of which is the output of a file with content before it, that
    converts every file with success, converts them all. -/
theorem forM_convertFile_converted (hsuffix : s.suffix.toList ≠ [])
    (hslash : '/' ∉ s.suffix.toList) {files : List String} {w w' : Workspace}
    (hno : NoClobber w s.suffix files)
    (h : (files.forM (convertFile s json) : InWorkspace Unit).run.run w = (.ok (), w')) :
    Converted s json w files w' := by
  -- the workspace each file is read from is carried in `w`, so the induction generalizes it
  induction files generalizing w with
  | nil =>
    cases h
    exact converted_nil _
  | cons f rest ih =>
    rw [List.forM] at h
    obtain ⟨u, w₁, h₁, hrest⟩ := exists_of_run_bind_eq_ok h
    have hstep := convertFile_converted h₁
    obtain ⟨hkeep, hno'⟩ := List.pairwise_cons.1 hno
    -- the files after `f` are read in `w₁` as in `w`, so none is the output of one before it
    have hno₁ : NoClobber w₁ s.suffix rest := hno'.imp_of_mem fun ha _ hab c hc hne => by
      rw [hstep.resolve_eq]
      rw [hstep.read?_eq (hkeep _ ha)] at hc
      exact hab c hc hne
    exact Converted.cons hsuffix hslash hstep hkeep (ih hno₁ hrest)

/-! ## A batch -/

/-- A batch under settings that pass their check fails on the first listed path that names no
    file, and changes nothing. Otherwise, when no listed file is the output of a file with
    content before it and the run succeeds, the output path of each file with content holds the
    pattern of the trie of its text, trailing blanks dropped, and a line break; every path that
    names none of these outputs reads as before. -/
theorem runBatch_writes_patterns {s : Settings} (hs : s.validate = .ok s) (json : Bool)
    (files : List String) (w : Workspace) :
    (∀ pre f post, files = pre ++ f :: post → (∀ g ∈ pre, (w.read? g).isSome = true) →
      w.read? f = none →
      (runBatch s json files : InWorkspace Unit).run.run w =
        (.error (Failure.of (.plain ("File does not exist: " ++ f))), w)) ∧
    (NoClobber w s.suffix files →
      ((runBatch s json files : InWorkspace Unit).run.run w).1 = .ok () →
      (∀ f ∈ files, ∀ c, w.read? f = some c → (Text.trimEnd c).isEmpty = false →
        ∃ t, Ingest.trie (Text.trimEnd c) s json = .ok t ∧
          ((runBatch s json files : InWorkspace Unit).run.run w).2.read? (outputPath f s.suffix) =
            some (t.pattern s.boundary s.capturing ++ "\n")) ∧
      ∀ p, (∀ f ∈ files, ∀ c, w.read? f = some c → (Text.trimEnd c).isEmpty = false →
          w.resolve p ≠ w.resolve (outputPath f s.suffix)) →
        ((runBatch s json files : InWorkspace Unit).run.run w).2.read? p = w.read? p) := by
  obtain ⟨hsuffix, hslash⟩ := Settings.suffix_of_validate hs
  refine ⟨fun pre f post hfiles hpre hf => ?_, fun hno hok => ?_⟩
  · rw [runBatch, hfiles, run_bind_of_error (run_checkFiles_of_missing hpre hf)]
  · obtain ⟨r, w', hrun⟩ : ∃ r w', (runBatch s json files : InWorkspace Unit).run.run w = (r, w') :=
      ⟨_, _, rfl⟩
    rw [hrun] at hok ⊢
    dsimp only at hok ⊢
    subst hok
    -- the check passed and changed nothing, and then every file was converted
    rw [runBatch] at hrun
    obtain ⟨u, w₀, hcheck, hconv⟩ := exists_of_run_bind_eq_ok hrun
    obtain ⟨-, rfl⟩ := run_checkFiles_eq_ok_iff.1 hcheck
    obtain ⟨-, hout, hframe⟩ := forM_convertFile_converted hsuffix hslash hno hconv
    refine ⟨fun f hf c hc hne => ?_, hframe⟩
    obtain ⟨text, hpat, htext⟩ := hout f hf c hc hne
    obtain ⟨t, ht, rfl⟩ := exists_of_patternText_eq_ok hpat
    exact ⟨t, ht, htext⟩

/-- A batch of two files with content, under the default settings, writes the pattern of the
    first to its output `a.triex.txt`. -/
theorem runBatch_writes_patterns_of_two_files :
    outputPath "a.txt" "triex" = "a.triex.txt" ∧
      ∃ t, Ingest.trie (Text.trimEnd "foo\n") {} false = .ok t ∧
        ((runBatch {} false ["a.txt", "b.txt"] : InWorkspace Unit).run.run
          (Workspace.ofFiles [("a.txt", "foo\n"), ("b.txt", "bar\n")] "")).2.read?
            (outputPath "a.txt" "triex") = some (t.pattern false none ++ "\n") := by
  have hno : NoClobber (Workspace.ofFiles [("a.txt", "foo\n"), ("b.txt", "bar\n")] "") "triex"
      ["a.txt", "b.txt"] :=
    List.pairwise_pair.2 fun _ _ _ => by decide +kernel
  have hok : ((runBatch {} false ["a.txt", "b.txt"] : InWorkspace Unit).run.run
      (Workspace.ofFiles [("a.txt", "foo\n"), ("b.txt", "bar\n")] "")).1 = .ok () := by
    decide +kernel
  have hs : Settings.validate {} = .ok {} := by decide
  exact ⟨by decide +kernel, ((@runBatch_writes_patterns {} hs false _ _).2 hno hok).1 "a.txt"
    List.mem_cons_self "foo\n" (by decide +kernel) (by decide +kernel)⟩

/-- An output can replace a file listed later before that file is read. In the batch `a.txt`,
    `a.triex.txt` the output of `a.txt` is `a.triex.txt`, so the output of `a.triex.txt` ends up
    holding the pattern of the text `foo` of `a.txt`, not that of its own text `bar`. -/
theorem runBatch_rereads_overwritten_input :
    (Workspace.ofFiles [("a.txt", "foo\n"), ("a.triex.txt", "bar\n")] "").read? "a.triex.txt" =
        some "bar\n" ∧
      patternText "bar" {} false = .ok "bar\n" ∧
      ((runBatch {} false ["a.txt", "a.triex.txt"] : InWorkspace Unit).run.run
        (Workspace.ofFiles [("a.txt", "foo\n"), ("a.triex.txt", "bar\n")] "")).1 = .ok () ∧
      ((runBatch {} false ["a.txt", "a.triex.txt"] : InWorkspace Unit).run.run
        (Workspace.ofFiles [("a.txt", "foo\n"), ("a.triex.txt", "bar\n")] "")).2.read?
          "a.triex.triex.txt" = some "foo\n" := by
  refine ⟨by decide +kernel, by decide +kernel, by decide +kernel, by decide +kernel⟩

end Cli

end Alternation
