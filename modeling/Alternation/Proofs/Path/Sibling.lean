import Alternation.Proofs.Path.Output
import Alternation.Settings.Basic

/-!
# Output paths are siblings

Paths are compared by what they name: their lead (rooted, from the current directory, or
neither) and their components. `Path.Same` compares these, so `a//b.txt`, `a/./b.txt` and
`a/b.txt/` are the same path as `a/b.txt`, while `./b.txt` and `b.txt` are not.

Replacing the file name of a path keeps its lead and the components before the file name, and the
new name, when it is a plain name, becomes the file name. The text of a path cut back to its
directory starts as the path does, so it has the path's lead too.

For settings that pass their check, the suffix is not empty and holds no `/`, so the output name
is again a plain name, longer than the file name. The output path of a file is then a sibling of
the file: the same parent, the stem, the suffix and the extension joined by dots as its file
name, never the file itself, and the output of no other file.

Main results:

* `Path.lead_withFileName`, `Path.fileName?_withFileName`: replacing the file name.
* `Path.lead_parentText`: the parent has the lead of the path.
* `Path.outputName_of_split`, `Path.outputName_of_no_ext`: output names by the file name's last
  dot.
* `Path.outputPath_sibling`: the output path is a sibling of the file, and distinct files have
  distinct output paths.
-/

namespace Alternation

namespace Settings

theorem suffix_of_validate {s s' : Settings} (h : s.validate = .ok s') :
    s.suffix.toList ≠ [] ∧ '/' ∉ s.suffix.toList := by
  cases hp : s.problem? with
  | some p =>
    rw [Settings.validate, hp] at h
    cases h
  | none =>
    unfold Settings.problem? at hp
    split_ifs at hp with hdelim hempty hsep
    refine ⟨fun hnil => hempty ?_, fun hmem => hsep ?_⟩
    · rw [String.isEmpty_iff, ← String.toList_eq_nil_iff, hnil]
    · exact List.any_eq_true.2 ⟨'/', hmem, by decide⟩

end Settings

namespace Path

/-- Two path texts name the same path: the same lead and the same components. Repeated and
    trailing `/` and `.` segments make no difference; a root or a leading `.` does. -/
def Same (cs cs' : List Char) : Prop :=
  lead cs = lead cs' ∧ components cs = components cs'

/-! ## The lead -/

/-- The first two characters of a text decide its lead, and so does a single one other than `.`;
    a lone `.` keeps its lead before a `/`. -/
theorem lead_append {P : List Char} (Y : List Char) (hP : P ≠ [])
    (hdot : P = ['.'] → Y.head? = some '/') : lead (P ++ Y) = lead P := by
  obtain ⟨c, r, rfl⟩ := List.exists_cons_of_ne_nil hP
  by_cases hs : c = '/'
  · subst hs
    rfl
  by_cases hc : c = '.'
  · subst hc
    rcases r with _ | ⟨d, r⟩
    · obtain ⟨Y', rfl⟩ := List.head?_eq_some_iff.1 (hdot rfl)
      rfl
    · by_cases hd : d = '/'
      · subst hd
        rfl
      · simp [lead, hd]
  · simp [lead, hs, hc]

theorem lead_of_plain {name : List Char} (hname : '/' ∉ name) (hcomp : isComponent name = true) :
    lead name = [] := by
  rcases name with _ | ⟨c, r⟩
  · rfl
  · have hs : c ≠ '/' := fun h => hname (h ▸ List.mem_cons_self)
    by_cases hc : c = '.'
    · subst hc
      rcases r with _ | ⟨d, r⟩
      · simp [isComponent] at hcomp
      · have hd : d ≠ '/' := fun h => hname (h ▸ List.mem_cons_of_mem _ List.mem_cons_self)
        simp [lead, hd]
    · simp [lead, hs, hc]

theorem lead_push {P : List Char} (name : List Char) (hP : P ≠ []) :
    lead (push P name) = lead P := by
  unfold push
  split
  · rename_i h
    exact absurd (List.getLast?_eq_none_iff.1 h) hP
  · rename_i h
    refine lead_append name hP fun hdot => ?_
    subst hdot
    simp at h
  · exact lead_append _ hP fun _ => rfl

/-! ## The parent -/

theorem intercalate_isPrefix {T U : List (List Char)} (h : T <+: U) :
    ['/'].intercalate T <+: ['/'].intercalate U := by
  induction T generalizing U with
  | nil => exact List.nil_prefix
  | cons t T ih =>
    obtain ⟨R, rfl⟩ := h
    cases T with
    | nil =>
      cases R with
      | nil => exact List.prefix_refl _
      | cons r R =>
        rw [List.singleton_append, List.intercalate_cons_cons, List.intercalate_singleton,
          List.append_assoc]
        exact List.prefix_append _ _
    | cons t' T' =>
      rw [List.cons_append, List.cons_append, List.intercalate_cons_cons,
        List.intercalate_cons_cons, List.append_assoc, List.append_assoc]
      exact (List.prefix_append_right_inj _).2 ((List.prefix_append_right_inj _).2 (ih ⟨R, rfl⟩))

variable {cs : List Char}

theorem parentText_isPrefix (cs : List Char) : parentText cs <+: cs := by
  rw [parentText]
  have hkept : trimTrailing (trimTrailing (segments cs)).dropLast <+: segments cs :=
    (trimTrailing_isPrefix _).trans ((List.dropLast_prefix _).trans (trimTrailing_isPrefix _))
  generalize trimTrailing (trimTrailing (segments cs)).dropLast = T at hkept ⊢
  have hjoin := intercalate_isPrefix hkept
  rcases lead_cases cs with ⟨rest, rfl, hlead, hseg⟩ | ⟨hlead, hseg⟩ | ⟨rest, rfl, -, hlead, hseg⟩
  · rw [hseg, Text.splitOn_single, List.intercalate_splitOn] at hjoin
    rw [hlead, List.singleton_append, List.cons_prefix_cons]
    exact ⟨rfl, hjoin⟩
  · rw [hseg, Text.splitOn_single, List.intercalate_splitOn] at hjoin
    rw [hlead, List.nil_append]
    exact hjoin
  · rw [hseg, Text.splitOn_single, List.intercalate_splitOn] at hjoin
    rw [hlead, List.singleton_append, List.cons_prefix_cons]
    exact ⟨rfl, hjoin⟩

/-- The text of a path cut back to its directory is `.` only after the lead `.`: the segments it
    keeps end with a component, and `.` is none. -/
theorem lead_of_parentText_eq_dot (h : parentText cs = ['.']) : lead cs = ['.'] := by
  rw [parentText] at h
  obtain ⟨-, -, -, hlast⟩ := trimTrailing_spec ((trimTrailing (segments cs)).dropLast)
  generalize trimTrailing (trimTrailing (segments cs)).dropLast = T at h hlast
  rcases lead_cases cs with ⟨-, -, hlead, -⟩ | ⟨hlead, -⟩ | ⟨-, -, -, hlead, -⟩
  · rw [hlead] at h
    simp at h
  · -- with no lead, the kept segments would be `.` alone, which is no component
    rw [hlead, List.nil_append] at h
    rcases T with _ | ⟨t, _ | ⟨t', T⟩⟩
    · simp at h
    · simp only [List.intercalate_singleton] at h
      have := hlast t (by simp)
      simp [h, isComponent] at this
    · simp only [List.intercalate_cons_cons, List.append_assoc, List.singleton_append] at h
      have hmem : '/' ∈ ['.'] := h ▸ List.mem_append_right t List.mem_cons_self
      simp at hmem
  · exact hlead

/-- The text of a path cut back to its directory has the lead of the path. -/
theorem lead_parentText (cs : List Char) : lead (parentText cs) = lead cs := by
  by_cases hP : parentText cs = []
  · have hlead : lead cs = [] := (List.append_eq_nil_iff.1 hP).1
    rw [hP, hlead]
    rfl
  · obtain ⟨W, hW⟩ := parentText_isPrefix cs
    by_cases hdot : parentText cs = ['.']
    · rw [hdot, lead_of_parentText_eq_dot hdot]
      rfl
    · have h := lead_append W hP fun h => absurd h hdot
      rw [hW] at h
      exact h.symm

/-! ## Replacing the file name -/

theorem lead_withFileName {N name : List Char} (hN : fileName? cs = some N) (hname : '/' ∉ name)
    (hcomp : isComponent name = true) : lead (withFileName cs name) = lead cs := by
  rw [withFileName, hN]
  by_cases hP : parentText cs = []
  · calc lead (push (parentText cs) name) = lead name := by rw [hP]; rfl
      _ = lead (parentText cs) := by rw [lead_of_plain hname hcomp, hP]; rfl
      _ = lead cs := lead_parentText cs
  · rw [lead_push name hP, lead_parentText]

/-- Replacing the file name by a plain name other than `..` makes it the file name. -/
theorem fileName?_withFileName {N name : List Char} (hN : fileName? cs = some N)
    (hname : '/' ∉ name) (hcomp : isComponent name = true) (hdots : name ≠ ['.', '.']) :
    fileName? (withFileName cs name) = some name :=
  fileName?_eq (components_withFileName hN hname hcomp).2 hcomp hdots

/-! ## Output names -/

/-- A file name split at its last dot, with something before the dot, gives the output name of
    the stem, the suffix and the extension. -/
theorem outputName_of_split {N stem ext : List Char} (suffix : List Char)
    (hN : fileName? cs = some N) (hsplit : N = stem ++ '.' :: ext) (hstem : stem ≠ [])
    (hext : '.' ∉ ext) : outputName cs suffix = stem ++ '.' :: suffix ++ '.' :: ext := by
  have hdots := (isComponent_of_fileName? hN).2
  simp only [outputName, hN, Option.map_some]
  rcases splitName_spec N with ⟨stem', ext', hs, hN', -, hext'⟩ | ⟨-, hno | hno⟩
  · rw [hs]
    -- both are splits at the last dot
    have hrev := congrArg List.reverse (hsplit.symm.trans hN')
    simp only [List.reverse_append, List.reverse_cons, List.append_assoc, List.singleton_append]
      at hrev
    obtain ⟨hext_eq, hstem_eq⟩ := eq_of_append_cons_eq hrev (by simpa using hext)
      (by simpa using hext')
    rw [List.reverse_inj] at hext_eq hstem_eq
    rw [hext_eq, hstem_eq]
  · exact absurd hno hdots
  · obtain ⟨s, ss, rfl⟩ := List.exists_cons_of_ne_nil hstem
    rw [hsplit] at hno
    simp at hno

/-- A file name without a dot after its first character gives the output name of the name and
    the suffix. -/
theorem outputName_of_no_ext {N : List Char} (suffix : List Char) (hN : fileName? cs = some N)
    (hno : '.' ∉ N.drop 1) : outputName cs suffix = N ++ '.' :: suffix := by
  simp only [outputName, hN, Option.map_some]
  rcases splitName_spec N with ⟨stem, ext, -, hN', hstem, -⟩ | ⟨hs, -⟩
  · obtain ⟨s, ss, rfl⟩ := List.exists_cons_of_ne_nil hstem
    rw [hN'] at hno
    simp at hno
  · rw [hs]

theorem length_lt_outputName {N : List Char} (suffix : List Char) (hN : fileName? cs = some N) :
    N.length < (outputName cs suffix).length := by
  simp only [outputName, hN, Option.map_some]
  rcases splitName_spec N with ⟨stem, ext, hs, hN', -, -⟩ | ⟨hs, -⟩ <;> rw [hs]
  · rw [hN']
    simp only [List.length_append, List.length_cons]
    omega
  · simp only [List.length_append, List.length_cons]
    omega

/-! ## Output paths -/

/-- The output path of a file, for a suffix that is not empty and holds no `/`, keeps the lead of
    the file and the components before its file name, and ends with the output name, which is its
    file name. -/
theorem outputPath_parts {suffix : String} (hsuffix : suffix.toList ≠ [])
    (hslash : '/' ∉ suffix.toList) {p : String} {N : List Char} (hN : fileName? p.toList = some N) :
    lead (outputPath p suffix).toList = lead p.toList ∧
      components (outputPath p suffix).toList =
        (components p.toList).dropLast ++ [outputName p.toList suffix.toList] ∧
      fileName? (outputPath p suffix).toList = some (outputName p.toList suffix.toList) := by
  obtain ⟨hcomp, hdots, hname⟩ := outputName_plain hN (slash_not_mem_of_fileName? hN) hsuffix hslash
  rw [outputPath, String.toList_ofList]
  exact ⟨lead_withFileName hN hname hcomp, (components_withFileName hN hname hcomp).1,
    fileName?_withFileName hN hname hcomp hdots⟩

/-- The output path of a file with a file name, for settings that pass their check, is a sibling
    of the file: it has the same parent; its file name is the stem, the suffix and the extension
    joined by dots when the name splits at its last dot with something before the dot, and the
    name and the suffix when it has no dot after its first character; it is not the file itself;
    and no other file has the same output path. -/
theorem outputPath_sibling {s : Settings} (hs : s.validate = .ok s) {p : String} {N : List Char}
    (hN : fileName? p.toList = some N) :
    Same (parentText (outputPath p s.suffix).toList) (parentText p.toList) ∧
      (∀ stem ext, N = stem ++ '.' :: ext → stem ≠ [] → '.' ∉ ext →
        fileName? (outputPath p s.suffix).toList =
          some (stem ++ '.' :: s.suffix.toList ++ '.' :: ext)) ∧
      ('.' ∉ N.drop 1 →
        fileName? (outputPath p s.suffix).toList = some (N ++ '.' :: s.suffix.toList)) ∧
      ¬Same (outputPath p s.suffix).toList p.toList ∧
      ∀ (q : String) (M : List Char), fileName? q.toList = some M →
        Same (outputPath q s.suffix).toList (outputPath p s.suffix).toList →
          Same q.toList p.toList := by
  obtain ⟨hsuffix, hslash⟩ := Settings.suffix_of_validate hs
  obtain ⟨hlead, hcomps, hname⟩ := outputPath_parts hsuffix hslash hN
  refine ⟨⟨?_, ?_⟩, fun stem ext hsplit hstem hext => ?_, fun hno => ?_, fun ⟨_, hsame⟩ => ?_,
    fun q M hM hsame => ?_⟩
  · rw [lead_parentText, lead_parentText, hlead]
  · rw [components_parentText, components_parentText, hcomps, List.dropLast_concat]
  · rw [hname, outputName_of_split _ hN hsplit hstem hext]
  · rw [hname, outputName_of_no_ext _ hN hno]
  · -- the last components would agree, but the output name is longer than the file name
    rw [hcomps] at hsame
    obtain ⟨-, hlast⟩ := List.append_inj' (hsame.trans (components_of_fileName? hN)) rfl
    have hlt := length_lt_outputName s.suffix.toList hN
    rw [List.singleton_inj.1 hlast] at hlt
    exact Nat.lt_irrefl _ hlt
  · -- the same parent and the same output name, which only the same file name gives
    obtain ⟨hlead', hcomps', -⟩ := outputPath_parts hsuffix hslash hM
    obtain ⟨hl, hc⟩ := hsame
    rw [hcomps', hcomps] at hc
    obtain ⟨hparent, hlast⟩ := List.append_inj' hc rfl
    have hMN := outputName_injective hM hN (List.singleton_inj.1 hlast)
    refine ⟨by rw [← hlead', hl, hlead], ?_⟩
    rw [components_of_fileName? hM, components_of_fileName? hN, hparent, hMN]

/-- The batch output of `dir/a.tar.gz` with the suffix `rx`. -/
theorem outputPath_sibling_of_archive :
    ({ suffix := "rx" } : Settings).validate = .ok { suffix := "rx" } ∧
      fileName? "dir/a.tar.gz".toList = some "a.tar.gz".toList ∧
      Same (parentText (outputPath "dir/a.tar.gz" "rx").toList) (parentText "dir/a.tar.gz".toList) ∧
      (∀ stem ext, "a.tar.gz".toList = stem ++ '.' :: ext → stem ≠ [] → '.' ∉ ext →
        fileName? (outputPath "dir/a.tar.gz" "rx").toList =
          some (stem ++ '.' :: "rx".toList ++ '.' :: ext)) ∧
      ('.' ∉ "a.tar.gz".toList.drop 1 →
        fileName? (outputPath "dir/a.tar.gz" "rx").toList = some ("a.tar.gz".toList ++ '.' :: "rx".toList)) ∧
      ¬Same (outputPath "dir/a.tar.gz" "rx").toList "dir/a.tar.gz".toList ∧
      ∀ (q : String) (M : List Char), fileName? q.toList = some M →
        Same (outputPath q "rx").toList (outputPath "dir/a.tar.gz" "rx").toList →
          Same q.toList "dir/a.tar.gz".toList := by
  have hs : ({ suffix := "rx" } : Settings).validate = .ok { suffix := "rx" } := by decide +kernel
  have hN : fileName? "dir/a.tar.gz".toList = some "a.tar.gz".toList := by decide +kernel
  exact ⟨hs, hN, outputPath_sibling hs hN⟩

end Path

end Alternation
