import Alternation.Cli.Workspace
import Alternation.Proofs.Path.Output

/-!
# Reading and writing the files of a workspace

A path resolves to the components of the file it names, following its segments from the
workspace down. Only components count, and the output path of a file resolves to the file's
directory followed by the output name; distinct files therefore have distinct output files.
Writing a file adds or replaces one entry of the file list inside an existing directory: it
creates no directory, so every path resolves as before, and afterwards the path read back gives
the text written while every other file keeps its text.

Main results:

* `Workspace.resolve_outputPath`: the components of an output file.
* `Workspace.eq_of_resolve_outputPath`: distinct files have distinct output files.
* `Workspace.isDirectory_write`, `Workspace.read?_write`: what a write changes.
-/

namespace Alternation

namespace Cli

namespace Workspace

open Alternation.Path

/-! ## Resolving a path -/

theorem step_of_not_component {inside : List String → Bool} {seg : List Char}
    (h : isComponent seg = false) (acc : Option (List String)) : step inside acc seg = acc := by
  have hskip : (seg.isEmpty || seg == ['.']) = true := by rwa [isComponent, Bool.not_eq_false'] at h
  cases acc with
  | none => rfl
  | some cs => simp [step, hskip]

theorem step_name {inside : List String → Bool} {seg : List Char} (hcomp : isComponent seg = true)
    (hdots : seg ≠ ['.', '.']) (cs : List String) :
    step inside (some cs) seg = if inside cs then some (cs ++ [String.ofList seg]) else none := by
  have hkeep : (seg.isEmpty || seg == ['.']) = false := by
    rwa [isComponent, Bool.not_eq_true'] at hcomp
  by_cases hin : inside cs <;> simp [step, hkeep, hin, hdots]

theorem foldl_step_filter (inside : List String → Bool) (segs : List (List Char))
    (acc : Option (List String)) :
    segs.foldl (step inside) acc = (segs.filter isComponent).foldl (step inside) acc := by
  induction segs generalizing acc with
  | nil => rfl
  | cons seg rest ih =>
    by_cases h : isComponent seg = true
    · rw [List.foldl_cons, List.filter_cons_of_pos h, List.foldl_cons, ih]
    · rw [List.foldl_cons, step_of_not_component (by simpa using h), ih,
        List.filter_cons_of_neg h]

theorem startsWith_slash_iff (p : String) : p.startsWith "/" = true ↔ p.toList.head? = some '/' := by
  rw [String.startsWith_string_iff]
  have hslash : "/".toList = ['/'] := by simp
  rw [hslash]
  cases p.toList with
  | nil => simp
  | cons c r => simp [List.cons_prefix_cons, eq_comm]

theorem locateWithin_eq {inside : List String → Bool} {p : String}
    (hroot : p.toList.head? ≠ some '/') :
    locateWithin inside p = (components p.toList).foldl (step inside) (some []) := by
  have hstart : p.startsWith "/" = false := by
    cases h : p.startsWith "/"
    · rfl
    · exact absurd ((startsWith_slash_iff p).1 h) hroot
  rw [locateWithin, if_neg (by simp [hstart]), foldl_step_filter]
  rfl

theorem head_ne_slash_of_locateWithin {inside : List String → Bool} {p : String}
    {cs : List String} (h : locateWithin inside p = some cs) : p.toList.head? ≠ some '/' := by
  intro hs
  rw [locateWithin, if_pos ((startsWith_slash_iff p).2 hs)] at h
  cases h

theorem good_step {inside : List String → Bool} {seg : List Char} (hseg : '/' ∉ seg)
    {acc : Option (List String)} (hacc : ∀ cs ∈ acc, ∀ c ∈ cs, c.toList ≠ [] ∧ '/' ∉ c.toList) :
    ∀ cs ∈ step inside acc seg, ∀ c ∈ cs, c.toList ≠ [] ∧ '/' ∉ c.toList := by
  intro cs hcs c hc
  cases acc with
  | none => cases hcs
  | some cs₀ =>
    simp only [step, Option.bind_some] at hcs
    split_ifs at hcs with hskip hout hup
    · cases hcs
      exact hacc _ rfl c hc
    · cases hcs
    · -- `..` goes up one directory
      split at hcs
      · cases hcs
      · cases hcs
        exact hacc _ rfl c (List.dropLast_subset _ hc)
    · cases hcs
      rcases List.mem_append.1 hc with hc | hc
      · exact hacc _ rfl c hc
      · rw [List.mem_singleton] at hc
        subst hc
        have hne : seg ≠ [] := fun hnil => by simp [hnil] at hskip
        exact ⟨by simpa using hne, by simpa using hseg⟩

theorem good_of_foldl_step {inside : List String → Bool} (segs : List (List Char))
    (hsegs : ∀ seg ∈ segs, '/' ∉ seg) {acc : Option (List String)}
    (hacc : ∀ cs ∈ acc, ∀ c ∈ cs, c.toList ≠ [] ∧ '/' ∉ c.toList) {cs : List String}
    (h : segs.foldl (step inside) acc = some cs) : ∀ c ∈ cs, c.toList ≠ [] ∧ '/' ∉ c.toList := by
  -- the resolution so far is carried in `acc`, so the induction generalizes it
  induction segs generalizing acc with
  | nil =>
    rw [List.foldl_nil] at h
    exact hacc cs h
  | cons seg rest ih =>
    rw [List.foldl_cons] at h
    exact ih (fun s hs => hsegs s (List.mem_cons_of_mem seg hs))
      (good_step (hsegs seg List.mem_cons_self) hacc) h

theorem good_of_locateWithin {inside : List String → Bool} {p : String} {cs : List String}
    (h : locateWithin inside p = some cs) : ∀ c ∈ cs, c.toList ≠ [] ∧ '/' ∉ c.toList := by
  rw [locateWithin_eq (head_ne_slash_of_locateWithin h)] at h
  refine good_of_foldl_step _ (fun seg hseg => ?_) (by simp) h
  rw [components, List.mem_filter, Text.splitOn_single] at hseg
  exact not_mem_of_mem_splitOn hseg.1

/-! ## Files and their output files -/

/-- A path that names a file and resolves ends with a plain name, looked up in the directory its
    other components resolve to. -/
theorem resolve_file {w : Workspace} {f : String} {cs : List String}
    (hdir : namesDirectory f = false) (h : w.resolve f = some cs) :
    ∃ N cs₀, (Text.splitOn ['/'] f.toList).getLast? = some N ∧ isComponent N = true ∧
      N ≠ ['.', '.'] ∧
      (components f.toList).dropLast.foldl (step w.isDirectory) (some []) = some cs₀ ∧
      w.isDirectory cs₀ = true ∧ cs = cs₀ ++ [String.ofList N] := by
  have hroot := head_ne_slash_of_locateWithin h
  unfold namesDirectory at hdir
  split at hdir
  · rename_i N hN
    rw [Bool.or_eq_false_iff] at hdir
    have hcomp : isComponent N = true := by rw [isComponent, hdir.1]; rfl
    have hdots : N ≠ ['.', '.'] := by simpa using hdir.2
    rw [resolve, locateWithin_eq hroot, components_of_fileName? (fileName?_eq hN hcomp hdots),
      List.foldl_append] at h
    cases hpre : (components f.toList).dropLast.foldl (step w.isDirectory) (some []) with
    | none =>
      rw [hpre] at h
      cases h
    | some cs₀ =>
      rw [hpre, List.foldl_cons, List.foldl_nil, step_name hcomp hdots] at h
      split_ifs at h with hin
      exact ⟨N, cs₀, hN, hcomp, hdots, rfl, hin, (Option.some.inj h).symm⟩
  · cases hdir

/-- The output file of a file lies in the file's directory, under the output name. -/
theorem resolve_outputPath {w : Workspace} {f suffix : String} {cs X : List String}
    (hdir : namesDirectory f = false) (hf : w.resolve f = some cs)
    (hsuffix : suffix.toList ≠ []) (hslash : '/' ∉ suffix.toList)
    (hX : w.resolve (outputPath f suffix) = some X) :
    X = cs.dropLast ++ [String.ofList (outputName f.toList suffix.toList)] := by
  obtain ⟨N, cs₀, hN, hcomp, hdots, hpre, hin, rfl⟩ := resolve_file hdir hf
  have hname : fileName? f.toList = some N := fileName?_eq hN hcomp hdots
  obtain ⟨hocomp, hodots, hoslash⟩ :=
    outputName_plain hname (slash_not_mem_of_fileName? hname) hsuffix hslash
  obtain ⟨hcomps, -⟩ := components_withFileName hname hoslash hocomp
  rw [resolve, locateWithin_eq (head_ne_slash_of_locateWithin hX), outputPath,
    String.toList_ofList, hcomps, List.foldl_append, hpre, List.foldl_cons, List.foldl_nil,
    step_name hocomp hodots, if_pos hin] at hX
  rw [List.dropLast_concat]
  exact (Option.some.inj hX).symm

/-- Distinct files have distinct output files. -/
theorem eq_of_resolve_outputPath {w : Workspace} {f g suffix : String} {cs cs' X : List String}
    (hf : namesDirectory f = false) (hg : namesDirectory g = false)
    (hcs : w.resolve f = some cs) (hcs' : w.resolve g = some cs')
    (hsuffix : suffix.toList ≠ []) (hslash : '/' ∉ suffix.toList)
    (hX : w.resolve (outputPath f suffix) = some X)
    (hX' : w.resolve (outputPath g suffix) = some X) : cs = cs' := by
  obtain ⟨N, cs₀, hN, hcomp, hdots, -, -, rfl⟩ := resolve_file hf hcs
  obtain ⟨N', cs₀', hN', hcomp', hdots', -, -, rfl⟩ := resolve_file hg hcs'
  have h := (resolve_outputPath hf hcs hsuffix hslash hX).symm.trans
    (resolve_outputPath hg hcs' hsuffix hslash hX')
  rw [List.dropLast_concat, List.dropLast_concat] at h
  obtain ⟨hparent, hout⟩ := List.append_inj' h rfl
  have hname := outputName_injective
    (fileName?_eq hN hcomp hdots) (fileName?_eq hN' hcomp' hdots')
    (String.ofList_injective (List.singleton_inj.1 hout))
  rw [hparent, hname]

/-! ## File keys -/

theorem splitOn_keyOf {cs : List String} (h : ∀ c ∈ cs, '/' ∉ c.toList) (hne : cs ≠ []) :
    (keyOf cs).toList.splitOn '/' = cs.map String.toList := by
  have hslash : "/".toList = ['/'] := by simp
  rw [keyOf, String.toList_intercalate, hslash]
  exact List.splitOn_intercalate '/' (by simpa using h) (by simpa using hne)

theorem keyOf_eq_nil_iff {cs : List String} (h : ∀ c ∈ cs, c.toList ≠ [] ∧ '/' ∉ c.toList) :
    (keyOf cs).toList = [] ↔ cs = [] := by
  constructor
  · intro hkey
    by_contra hne
    have hsplit := splitOn_keyOf (fun c hc => (h c hc).2) hne
    rw [hkey, List.splitOn_nil, eq_comm, List.map_eq_singleton_iff] at hsplit
    obtain ⟨c, rfl, hc⟩ := hsplit
    exact (h c List.mem_cons_self).1 hc
  · rintro rfl
    simp [keyOf]

theorem keyOf_injective {cs cs' : List String} (h : ∀ c ∈ cs, c.toList ≠ [] ∧ '/' ∉ c.toList)
    (h' : ∀ c ∈ cs', c.toList ≠ [] ∧ '/' ∉ c.toList) (heq : keyOf cs = keyOf cs') : cs = cs' := by
  by_cases hnil : cs = []
  · subst hnil
    have hkey : (keyOf cs').toList = [] := by rw [← heq]; simp [keyOf]
    exact ((keyOf_eq_nil_iff h').1 hkey).symm
  · have hnil' : cs' ≠ [] := fun h0 => hnil ((keyOf_eq_nil_iff h).1 (by rw [heq, h0]; simp [keyOf]))
    have hsplit := splitOn_keyOf (fun c hc => (h c hc).2) hnil
    rw [heq, splitOn_keyOf (fun c hc => (h' c hc).2) hnil'] at hsplit
    exact ((List.map_inj_right fun _ _ => String.toList_injective).1 hsplit).symm

theorem toList_keyOf_concat {D : List String} (hD : D ≠ []) (c : String) :
    (keyOf (D ++ [c])).toList = (keyOf D).toList ++ '/' :: c.toList := by
  rw [keyOf, String.intercalate_append_of_ne_nil hD (List.cons_ne_nil c []),
    String.intercalate_singleton, String.toList_append, String.toList_append]
  simp [keyOf]

theorem isPrefixOf_iff (a b : String) : a.isPrefixOf b = true ↔ a.toList <+: b.toList := by
  rw [String.isPrefixOf, String.startsWith_string_iff]

/-! ## Putting a file into the file list -/

theorem lookup_cons_pair (k k' t : String) (rest : List (String × String)) :
    ((k', t) :: rest).lookup k = if k = k' then some t else rest.lookup k := by
  by_cases hk : k = k'
  · simp [hk]
  · simp [List.lookup_cons, hk, beq_eq_false_iff_ne.2 hk]

theorem lookup_insertFile (key text k : String) (files : List (String × String)) :
    (insertFile key text files).lookup k = if k = key then some text else files.lookup k := by
  induction files with
  | nil =>
    rw [insertFile, lookup_cons_pair]
  | cons e rest ih =>
    obtain ⟨k', t'⟩ := e
    rw [insertFile]
    by_cases hlt : key < k'
    · rw [if_pos hlt, lookup_cons_pair]
    · rw [if_neg hlt]
      by_cases heq : key = k'
      · -- the file replaces the one of the same path
        subst heq
        rw [if_pos rfl, lookup_cons_pair, lookup_cons_pair]
        by_cases hk : k = key <;> simp [hk]
      · rw [if_neg heq, lookup_cons_pair, lookup_cons_pair, ih]
        by_cases hk : k = k'
        · have hne : k ≠ key := fun h => heq (h.symm.trans hk)
          rw [if_pos hk, if_neg hne, if_pos hk]
        · by_cases hkey : k = key <;> simp [hk, hkey, heq]

theorem any_insertFile (q : String → Bool) (key text : String) (files : List (String × String)) :
    (insertFile key text files).any (fun e => q e.1) = (q key || files.any fun e => q e.1) := by
  induction files with
  | nil => simp [insertFile]
  | cons e rest ih =>
    obtain ⟨k', t'⟩ := e
    unfold insertFile
    split_ifs with hlt heq
    · simp
    · subst heq
      simp
    · simp only [List.any_cons, ih]
      exact Bool.or_left_comm _ _ _

theorem isDirectory_eq (w : Workspace) (cs : List String) :
    w.isDirectory cs = (cs.isEmpty || w.files.any fun e => (keyOf cs ++ "/").isPrefixOf e.1) :=
  rfl

/-! ## Writing a file -/

theorem write?_eq_some {w w' : Workspace} {p text : String} (h : w.write? p text = some w') :
    ∃ cs, namesDirectory p = false ∧ w.resolve p = some cs ∧ cs ≠ [] ∧
      w.isDirectory cs.dropLast = true ∧
      w' = { w with files := insertFile (keyOf cs) text w.files } := by
  unfold write? at h
  split_ifs at h with hdir
  split at h
  · cases h
  · rename_i cs hcs
    split_ifs at h with hbad
    cases h
    simp only [Bool.or_eq_true, List.isEmpty_iff, Bool.not_eq_true', not_or] at hbad
    exact ⟨cs, by simpa using hdir, hcs, hbad.1.1, by simpa using hbad.2, rfl⟩

theorem isPrefix_slash_of_isPrefix {X Y L : List Char} (hL : '/' ∉ L)
    (h : X ++ ['/'] <+: Y ++ '/' :: L) : X ++ ['/'] <+: Y ++ ['/'] := by
  have hY : Y ++ ['/'] <+: Y ++ '/' :: L := ⟨L, by simp⟩
  by_cases hlen : (X ++ ['/']).length ≤ (Y ++ ['/']).length
  · exact List.prefix_of_prefix_length_le h hY hlen
  · -- otherwise the longer prefix would end in a `/` of `L`
    obtain ⟨M, hM⟩ := List.prefix_of_prefix_length_le hY h (by omega)
    have hMne : M ≠ [] := by
      rintro rfl
      simp [← hM] at hlen
    have hlast : M.getLast? = some '/' := by
      have hX : (X ++ ['/']).getLast? = some '/' := by simp
      rw [← hM, List.getLast?_append] at hX
      obtain ⟨m, hm⟩ := Option.ne_none_iff_exists'.1 (mt List.getLast?_eq_none_iff.1 hMne)
      rw [hm] at hX ⊢
      exact hX
    rw [← hM, List.append_assoc, List.prefix_append_right_inj, List.singleton_append,
      List.prefix_cons_inj] at h
    exact absurd (h.subset (List.mem_of_getLast? hlast)) hL

theorem isDirectory_of_isPrefix {w : Workspace} {D cs : List String} (hD : w.isDirectory D = true)
    (hne : D ≠ []) (h : (keyOf cs ++ "/").toList <+: (keyOf D ++ "/").toList) :
    w.isDirectory cs = true := by
  rw [isDirectory_eq] at hD ⊢
  rw [List.isEmpty_eq_false_iff.2 hne, Bool.false_or, List.any_eq_true] at hD
  obtain ⟨e, he, hpre⟩ := hD
  have hcs : (keyOf cs ++ "/").isPrefixOf e.1 = true :=
    (isPrefixOf_iff _ _).2 (h.trans ((isPrefixOf_iff _ _).1 hpre))
  rw [List.any_eq_true.2 ⟨e, he, hcs⟩, Bool.or_true]

theorem isDirectory_of_isPrefixOf_keyOf {w : Workspace} {p : String} {cs₀ cs : List String}
    (hcs₀ : w.resolve p = some cs₀) (hne : cs₀ ≠ []) (hparent : w.isDirectory cs₀.dropLast = true)
    (hnew : (keyOf cs ++ "/").isPrefixOf (keyOf cs₀) = true) : w.isDirectory cs = true := by
  have hgood := good_of_locateWithin hcs₀
  obtain ⟨D, c, rfl⟩ : ∃ D c, cs₀ = D ++ [c] := ⟨_, _, (List.dropLast_concat_getLast hne).symm⟩
  have hc := hgood c (List.mem_append_right D List.mem_cons_self)
  have hslash : "/".toList = ['/'] := by simp
  rw [List.dropLast_concat] at hparent
  rw [isPrefixOf_iff, String.toList_append, hslash] at hnew
  by_cases hD : D = []
  · -- a file of the workspace itself: its key is its name, which has no `/`
    subst hD
    have hkey : (keyOf [c]).toList = c.toList := by simp [keyOf]
    rw [List.nil_append, hkey] at hnew
    exact absurd (hnew.subset (by simp)) hc.2
  · rw [toList_keyOf_concat hD] at hnew
    refine isDirectory_of_isPrefix hparent hD ?_
    rw [String.toList_append, String.toList_append, hslash]
    exact isPrefix_slash_of_isPrefix hc.2 hnew

/-- A write creates no directory. -/
theorem isDirectory_write {w w' : Workspace} {p text : String} (h : w.write? p text = some w')
    (cs : List String) : w'.isDirectory cs = w.isDirectory cs := by
  obtain ⟨cs₀, -, hcs₀, hne, hparent, rfl⟩ := write?_eq_some h
  rw [isDirectory_eq, isDirectory_eq, any_insertFile ((keyOf cs ++ "/").isPrefixOf)]
  cases hnew : (keyOf cs ++ "/").isPrefixOf (keyOf cs₀)
  · rw [Bool.false_or]
  · -- the new file lies in the directory `cs₀.dropLast`, which already holds a file
    rw [← isDirectory_eq, isDirectory_of_isPrefixOf_keyOf hcs₀ hne hparent hnew, Bool.true_or,
      Bool.or_true]

theorem resolve_write {w w' : Workspace} {p text : String} (h : w.write? p text = some w') :
    w'.resolve = w.resolve := by
  funext q
  have hdir : w'.isDirectory = w.isDirectory := funext (isDirectory_write h)
  rw [resolve, resolve, hdir]

theorem read?_eq_of_resolve {w : Workspace} {p q : String} (hp : namesDirectory p = false)
    (hq : namesDirectory q = false) (h : w.resolve p = w.resolve q) : w.read? p = w.read? q := by
  rw [read?, read?, hp, hq, h]

theorem exists_of_read?_eq_some {w : Workspace} {p c : String} (h : w.read? p = some c) :
    namesDirectory p = false ∧ ∃ cs, w.resolve p = some cs := by
  unfold read? at h
  split_ifs at h with hdir
  refine ⟨by simpa using hdir, ?_⟩
  cases hres : w.resolve p with
  | none =>
    rw [hres] at h
    cases h
  | some cs => exact ⟨cs, rfl⟩

/-- Files with content whose output paths name the same file are the same file, so they read
    the same. -/
theorem eq_of_resolve_outputPath_eq {w : Workspace} {f g suffix c c' : String}
    (hsuffix : suffix.toList ≠ []) (hslash : '/' ∉ suffix.toList)
    (hc : w.read? f = some c) (hc' : w.read? g = some c')
    (hsame : w.resolve (outputPath f suffix) = w.resolve (outputPath g suffix))
    (hsome : (w.resolve (outputPath f suffix)).isSome = true) : c = c' := by
  obtain ⟨hf, cs, hcs⟩ := exists_of_read?_eq_some hc
  obtain ⟨hg, cs', hcs'⟩ := exists_of_read?_eq_some hc'
  obtain ⟨X, hX⟩ := Option.isSome_iff_exists.1 hsome
  have hfile := eq_of_resolve_outputPath hf hg hcs hcs' hsuffix hslash hX (hsame.symm.trans hX)
  have hread := read?_eq_of_resolve hf hg (by rw [hcs, hcs', hfile])
  rw [hc, hc'] at hread
  exact Option.some.inj hread

/-- After a write, the paths that name the file written read the text written, and every other
    path reads as before. -/
theorem read?_write {w w' : Workspace} {p text : String} {cs : List String}
    (h : w.write? p text = some w') (hp : w.resolve p = some cs) (q : String) :
    w'.read? q =
      if w.resolve q = some cs ∧ namesDirectory q = false then some text else w.read? q := by
  have hres := resolve_write h
  obtain ⟨cs₀, -, hcs₀, -, -, rfl⟩ := write?_eq_some h
  rw [hp, Option.some.injEq] at hcs₀
  subst hcs₀
  unfold read?
  rw [hres]
  cases hdir : namesDirectory q
  · cases hq : w.resolve q with
    | none => simp
    | some cq =>
      simp only [Option.bind_some, lookup_insertFile]
      by_cases hcq : cq = cs
      · simp [hcq]
      · have hkey : keyOf cq ≠ keyOf cs := fun hk =>
          hcq (keyOf_injective (good_of_locateWithin hq) (good_of_locateWithin hp) hk)
        simp [hkey, hcq]
  · simp

end Workspace

end Cli

end Alternation
