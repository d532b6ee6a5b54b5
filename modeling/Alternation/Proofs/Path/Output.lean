import Alternation.Path
import Mathlib.Data.List.TakeDrop
import Mathlib.Data.List.TakeWhile

/-!
# The components of an output path

Only the components of a path matter for the file it names: the segments between `/` that are
neither empty nor `.`. The output path of a file keeps the components of the file's directory
and replaces its file name, so it names a file in the same directory whatever the text of the
path: `components (withFileName cs name)` is the components of `cs` with the last replaced by
`name`. The name of an output determines the file name it was made from, as long as the suffix
is not empty and holds no `/`.

Main results:

* `Path.components_withFileName`: the components of a path with its file name replaced.
* `Path.outputName_injective`: distinct file names give distinct output names.
-/

namespace Alternation

namespace Text

theorem splitFrom_single (d : Char) (acc cs : List Char) :
    splitFrom d [] acc cs = (cs.splitOn d).modifyHead (acc.reverse ++ ·) := by
  -- the piece read so far is carried in `acc`, so the induction generalizes it
  induction cs generalizing acc with
  | nil => simp [splitFrom]
  | cons c r ih =>
    rw [splitFrom]
    by_cases hc : c = d
    · subst hc
      have hid : ∀ l : List (List Char), l.modifyHead (fun x => x) = l := by
        intro l
        cases l <;> simp
      simp [List.isPrefixOf, ih, hid, List.splitOn, List.splitOnP_cons_eq_if_modifyHead]
    · have hdc : (d == c) = false := beq_false_of_ne (Ne.symm hc)
      simp [List.isPrefixOf, hdc, hc, ih, List.splitOn, List.splitOnP_cons_eq_if_modifyHead,
        List.modifyHead_modifyHead, Function.comp_def]

/-- Cutting at a single character is the library's `List.splitOn`. -/
theorem splitOn_single (d : Char) (cs : List Char) : splitOn [d] cs = cs.splitOn d := by
  rw [splitOn, splitFrom_single]
  obtain ⟨p, ps, hps⟩ := List.exists_cons_of_ne_nil (List.splitOn_ne_nil d cs)
  rw [hps]
  rfl

end Text

namespace Path

/-- The components of a path text: its segments that are neither empty nor `.`. -/
def components (cs : List Char) : List (List Char) :=
  (Text.splitOn ['/'] cs).filter isComponent

theorem not_mem_of_mem_splitOn {d : Char} {cs seg : List Char} (h : seg ∈ cs.splitOn d) :
    d ∉ seg := by
  induction cs generalizing seg with
  | nil =>
    simp only [List.splitOn_nil, List.mem_singleton] at h
    simp [h]
  | cons c r ih =>
    simp only [List.splitOn, List.splitOnP_cons_eq_if_modifyHead] at h ih
    by_cases hc : c = d
    · simp only [hc, beq_self_eq_true, if_true, List.mem_cons] at h
      rcases h with rfl | h
      · simp
      · exact ih h
    · have hcd : (c == d) = false := beq_false_of_ne hc
      simp only [hcd, Bool.false_eq_true, if_false] at h
      obtain ⟨p, ps, hps⟩ := List.exists_cons_of_ne_nil (List.splitOnP_ne_nil (· == d) r)
      rw [hps, List.modifyHead_cons, List.mem_cons] at h
      rcases h with rfl | h
      · have hp : d ∉ p := ih (by rw [hps]; exact List.mem_cons_self)
        simp [hp, Ne.symm hc]
      · exact ih (by rw [hps]; exact List.mem_cons_of_mem p h)

theorem components_append_slash (u v : List Char) :
    components (u ++ '/' :: v) = components u ++ components v := by
  simp only [components, Text.splitOn_single, List.splitOn]
  rw [List.splitOnP_append_cons u v (by simp), List.filter_append]

theorem components_of_slash_not_mem {u : List Char} (h : '/' ∉ u) :
    components u = [u].filter isComponent := by
  have hsplit : u.splitOn '/' = [u] := by
    apply List.splitOnP_eq_singleton
    intro x hx
    have hne : x ≠ '/' := fun hx' => h (hx' ▸ hx)
    simpa using hne
  simp only [components, Text.splitOn_single, hsplit]

theorem components_intercalate {T : List (List Char)} (hT : ∀ t ∈ T, '/' ∉ t) :
    components (['/'].intercalate T) = T.filter isComponent := by
  cases T with
  | nil => simp [components, Text.splitOn_single, isComponent]
  | cons t T' =>
    simp only [components, Text.splitOn_single]
    rw [List.splitOn_intercalate '/' hT (List.cons_ne_nil t T')]

/-! ## Trimming trailing segments -/

/-- Trimming drops a run of segments that are no components from the end, and what is left ends
    with a component. -/
theorem trimTrailing_spec (X : List (List Char)) :
    ∃ R, X = trimTrailing X ++ R ∧ (∀ r ∈ R, isComponent r = false) ∧
      ∀ t ∈ (trimTrailing X).getLast?, isComponent t = true := by
  refine ⟨(X.reverse.takeWhile fun seg => !isComponent seg).reverse, ?_, ?_, ?_⟩
  · rw [trimTrailing, ← List.reverse_append, List.takeWhile_append_dropWhile,
      List.reverse_reverse]
  · intro r hr
    have := List.mem_takeWhile_imp (List.mem_reverse.1 hr)
    simpa using this
  · intro t ht
    rw [trimTrailing, List.getLast?_reverse] at ht
    have hhead := List.head?_dropWhile_not (fun seg => !isComponent seg) X.reverse
    rw [ht] at hhead
    simpa using hhead

theorem filter_trimTrailing (X : List (List Char)) :
    (trimTrailing X).filter isComponent = X.filter isComponent := by
  obtain ⟨R, hX, hR, -⟩ := trimTrailing_spec X
  have hRnil : R.filter isComponent = [] :=
    List.filter_eq_nil_iff.2 fun r hr => by simp [hR r hr]
  calc (trimTrailing X).filter isComponent
      = (trimTrailing X ++ R).filter isComponent := by
        rw [List.filter_append, hRnil, List.append_nil]
    _ = X.filter isComponent := by rw [← hX]

theorem trimTrailing_of_getLast {X : List (List Char)} {t : List Char} (h : X.getLast? = some t)
    (ht : isComponent t = true) : trimTrailing X = X := by
  obtain ⟨Y, rfl⟩ := List.getLast?_eq_some_iff.1 h
  simp [trimTrailing, ht]

theorem trimTrailing_isPrefix (X : List (List Char)) : trimTrailing X <+: X := by
  obtain ⟨R, hX, -, -⟩ := trimTrailing_spec X
  exact ⟨R, hX.symm⟩

theorem filter_dropLast_of_getLast {X : List (List Char)}
    (h : ∀ t ∈ X.getLast?, isComponent t = true) :
    X.dropLast.filter isComponent = (X.filter isComponent).dropLast := by
  cases hX : X.getLast? with
  | none =>
    rw [List.getLast?_eq_none_iff] at hX
    simp [hX]
  | some t =>
    obtain ⟨Y, rfl⟩ := List.getLast?_eq_some_iff.1 hX
    have ht : isComponent t = true := h t (by simp)
    simp [ht]

/-! ## The lead of a path -/

variable {cs : List Char}

/-- A path is rooted, or has no lead, or the lead `.` before nothing or before a `/`. -/
theorem lead_cases (cs : List Char) :
    (∃ rest, cs = '/' :: rest ∧ lead cs = ['/'] ∧ segments cs = Text.splitOn ['/'] rest) ∨
    (lead cs = [] ∧ segments cs = Text.splitOn ['/'] cs) ∨
      ∃ rest, cs = '.' :: rest ∧ (rest = [] ∨ rest.head? = some '/') ∧ lead cs = ['.'] ∧
        segments cs = Text.splitOn ['/'] rest := by
  rcases cs with _ | ⟨c, r⟩
  · exact .inr (.inl ⟨rfl, rfl⟩)
  · by_cases hs : c = '/'
    · subst hs
      exact .inl ⟨r, rfl, rfl, rfl⟩
    right
    by_cases hc : c = '.'
    · subst hc
      rcases r with _ | ⟨c', r'⟩
      · right
        exact ⟨[], rfl, .inl rfl, rfl, rfl⟩
      · by_cases hc' : c' = '/'
        · subst hc'
          right
          exact ⟨_, rfl, .inr rfl, rfl, rfl⟩
        · left
          simp [lead, segments, hc']
    · left
      simp [lead, segments, hc, hs]

theorem components_nil : components [] = [] := by
  simp [components, Text.splitOn_single, isComponent]

theorem components_dot : components ['.'] = [] := by
  rw [components_of_slash_not_mem (by decide)]
  decide

theorem components_slash_cons (rest : List Char) : components ('/' :: rest) = components rest := by
  have h := components_append_slash [] rest
  rwa [List.nil_append, components_nil, List.nil_append] at h

theorem components_eq_filter_segments (cs : List Char) :
    components cs = (segments cs).filter isComponent := by
  rcases lead_cases cs with ⟨rest, rfl, -, hseg⟩ | ⟨-, hseg⟩ | ⟨rest, rfl, hrest, -, hseg⟩
  · rw [hseg, components_slash_cons]
    rfl
  · rw [hseg]
    rfl
  · rw [hseg]
    show components ('.' :: rest) = components rest
    rcases hrest with rfl | hslash
    · rw [components_dot, components_nil]
    · obtain ⟨r, rfl⟩ := List.head?_eq_some_iff.1 hslash
      have hdot := components_append_slash ['.'] r
      rw [List.singleton_append] at hdot
      rw [hdot, components_slash_cons, components_dot, List.nil_append]

/-- Segments without `/` after the lead of a path: after the lead `.` they start with the empty
    segment before the first `/`, which is no component either. -/
theorem components_lead_intercalate {T : List (List Char)} (hT : ∀ t ∈ T, '/' ∉ t)
    (hlead : lead cs = ['/'] ∨ lead cs = [] ∨ (lead cs = ['.'] ∧ (T = [] ∨ T.head? = some []))) :
    components (lead cs ++ ['/'].intercalate T) = T.filter isComponent := by
  rcases hlead with hroot | hnil | ⟨hdot, hstart⟩
  · rw [hroot, List.singleton_append, components_slash_cons, components_intercalate hT]
  · rw [hnil, List.nil_append, components_intercalate hT]
  · rw [hdot]
    rcases hstart with rfl | hstart
    · exact components_dot
    · obtain ⟨T', rfl⟩ := List.head?_eq_some_iff.1 hstart
      cases T' with
      | nil => exact components_dot
      | cons t T'' =>
        have hrest : ∀ u ∈ t :: T'', '/' ∉ u := fun u hu => hT u (List.mem_cons_of_mem [] hu)
        rw [List.intercalate_cons_cons, List.nil_append, List.singleton_append,
          List.singleton_append, ← List.singleton_append, components_append_slash,
          components_dot, components_intercalate hrest]
        simp [isComponent]

theorem not_mem_of_mem_segments {seg : List Char} (h : seg ∈ segments cs) : '/' ∉ seg := by
  rw [segments, Text.splitOn_single] at h
  exact not_mem_of_mem_splitOn h

/-! ## Replacing the file name -/

/-- The text of a path cut back to its directory has all components of the path but the last. -/
theorem components_parentText (cs : List Char) :
    components (parentText cs) = (components cs).dropLast := by
  obtain ⟨-, -, -, hlast⟩ := trimTrailing_spec (segments cs)
  -- the segments kept, an initial part of all segments
  have hkept : trimTrailing (trimTrailing (segments cs)).dropLast <+: segments cs :=
    (trimTrailing_isPrefix _).trans ((List.dropLast_prefix _).trans (trimTrailing_isPrefix _))
  have hslash : ∀ t ∈ trimTrailing (trimTrailing (segments cs)).dropLast, '/' ∉ t :=
    fun t ht => not_mem_of_mem_segments (hkept.subset ht)
  have hlead : lead cs = ['/'] ∨ lead cs = [] ∨ (lead cs = ['.'] ∧
      (trimTrailing (trimTrailing (segments cs)).dropLast = [] ∨
        (trimTrailing (trimTrailing (segments cs)).dropLast).head? = some [])) := by
    rcases lead_cases cs with ⟨-, -, hroot, -⟩ | ⟨hnil, -⟩ | ⟨rest, -, hrest, hdot, hseg⟩
    · exact .inl hroot
    · exact .inr (.inl hnil)
    · -- after the lead `.` the segments start with an empty one
      have hstart : (segments cs).head? = some [] := by
        rw [hseg, Text.splitOn_single]
        rcases hrest with rfl | hslash'
        · rfl
        · obtain ⟨r, rfl⟩ := List.head?_eq_some_iff.1 hslash'
          simp [List.splitOn, List.splitOnP_cons_eq_if_modifyHead]
      refine .inr (.inr ⟨hdot, ?_⟩)
      by_cases hnil : trimTrailing (trimTrailing (segments cs)).dropLast = []
      · exact .inl hnil
      · right
        have hne := hnil
        obtain ⟨t, T, hT⟩ := List.exists_cons_of_ne_nil hne
        rw [hT] at hkept ⊢
        obtain ⟨R, hR⟩ := hkept
        rw [← hR] at hstart
        simpa using hstart
  rw [parentText, components_lead_intercalate hslash hlead, filter_trimTrailing,
    filter_dropLast_of_getLast hlast, filter_trimTrailing, components_eq_filter_segments cs]

theorem components_push (base : List Char) {name : List Char} (hname : '/' ∉ name)
    (hcomp : isComponent name = true) :
    components (push base name) = components base ++ [name] := by
  have hone : components name = [name] := by
    rw [components_of_slash_not_mem hname]
    simp [hcomp]
  unfold push
  split
  · rename_i hbase
    rw [List.getLast?_eq_none_iff] at hbase
    rw [hbase, components_nil, hone, List.nil_append]
  · rename_i hbase
    obtain ⟨X, rfl⟩ := List.getLast?_eq_some_iff.1 hbase
    have hX := components_append_slash X []
    rw [List.append_assoc, List.singleton_append, components_append_slash, hX, components_nil,
      List.append_nil, hone]
  · rw [components_append_slash, hone]

theorem getLast?_splitOn_push (base : List Char) {name : List Char} (hname : '/' ∉ name) :
    (Text.splitOn ['/'] (push base name)).getLast? = some name := by
  have hone : name.splitOnP (· == '/') = [name] := List.splitOnP_eq_singleton fun x hx => by
    have hne : x ≠ '/' := fun hx' => hname (hx' ▸ hx)
    simpa using hne
  rw [Text.splitOn_single, List.splitOn]
  unfold push
  split
  · rw [hone]
    rfl
  · rename_i hbase
    obtain ⟨X, rfl⟩ := List.getLast?_eq_some_iff.1 hbase
    rw [List.append_assoc, List.singleton_append, List.splitOnP_append_cons X name (by simp), hone,
      List.getLast?_append]
    rfl
  · rw [List.splitOnP_append_cons base name (by simp), hone,
      List.getLast?_append]
    rfl

theorem getLast?_splitOn_append_slash (u r : List Char) :
    (Text.splitOn ['/'] (u ++ '/' :: r)).getLast? = (Text.splitOn ['/'] r).getLast? := by
  rw [Text.splitOn_single, Text.splitOn_single]
  simp only [List.splitOn]
  rw [List.splitOnP_append_cons u r (by simp), List.getLast?_append]
  cases hr : (r.splitOnP (· == '/')).getLast? with
  | none => simp [List.getLast?_eq_none_iff, List.splitOnP_ne_nil] at hr
  | some t => rfl

theorem fileName?_eq {N : List Char}
    (hlast : (Text.splitOn ['/'] cs).getLast? = some N) (hN : isComponent N = true)
    (hdots : N ≠ ['.', '.']) : fileName? cs = some N := by
  have hseg : (segments cs).getLast? = some N := by
    rcases lead_cases cs with ⟨rest, rfl, -, hs⟩ | ⟨-, hs⟩ | ⟨rest, rfl, hrest, -, hs⟩
    · rw [hs, ← getLast?_splitOn_append_slash []]
      exact hlast
    · rw [hs]
      exact hlast
    · rw [hs]
      rcases hrest with rfl | hslash
      · -- the path `.` has no component
        have hdot : Text.splitOn ['/'] ['.'] = [['.']] := by
          rw [Text.splitOn_single]
          rfl
        rw [hdot] at hlast
        cases hlast
        simp [isComponent] at hN
      · -- after `./`, both splits end with the segments after the `/`
        obtain ⟨r, rfl⟩ := List.head?_eq_some_iff.1 hslash
        have hdot := getLast?_splitOn_append_slash ['.'] r
        have hnil := getLast?_splitOn_append_slash [] r
        rw [List.singleton_append] at hdot
        rw [List.nil_append] at hnil
        rw [hnil, ← hdot]
        exact hlast
  rw [fileName?, trimTrailing_of_getLast hseg hN, hseg]
  simp [hN, hdots]

theorem components_of_fileName? {N : List Char} (hN : fileName? cs = some N) :
    components cs = (components cs).dropLast ++ [N] := by
  unfold fileName? at hN
  split at hN
  · rename_i seg hlast
    split_ifs at hN with hc
    obtain rfl : seg = N := Option.some.inj hN
    obtain ⟨Y, hY⟩ := List.getLast?_eq_some_iff.1 hlast
    have hcomp : isComponent seg = true := by
      simp only [Bool.and_eq_true] at hc
      exact hc.1
    rw [components_eq_filter_segments, ← filter_trimTrailing, hY, List.filter_append]
    simp [hcomp]
  · cases hN

theorem slash_not_mem_of_fileName? {N : List Char} (hN : fileName? cs = some N) : '/' ∉ N := by
  unfold fileName? at hN
  split at hN
  · rename_i seg hlast
    split_ifs at hN
    obtain rfl : seg = N := Option.some.inj hN
    exact not_mem_of_mem_segments ((trimTrailing_isPrefix _).subset (List.mem_of_getLast? hlast))
  · cases hN

/-- Replacing the file name of a path replaces its last component and keeps the others. -/
theorem components_withFileName {N : List Char} (hN : fileName? cs = some N) {name : List Char}
    (hname : '/' ∉ name) (hcomp : isComponent name = true) :
    components (withFileName cs name) = (components cs).dropLast ++ [name] ∧
      (Text.splitOn ['/'] (withFileName cs name)).getLast? = some name := by
  rw [withFileName, hN]
  exact ⟨by rw [components_push _ hname hcomp, components_parentText],
    getLast?_splitOn_push _ hname⟩

/-! ## Output names -/

/-- A file name either splits at its last dot into a stem that is not empty and an extension
    without a dot, or has no extension: it is `..`, or it has no dot after its first character. -/
theorem splitName_spec (name : List Char) :
    (∃ stem ext, splitName name = (stem, some ext) ∧ name = stem ++ '.' :: ext ∧ stem ≠ [] ∧
      '.' ∉ ext) ∨
    (splitName name = (name, none) ∧ (name = ['.', '.'] ∨ '.' ∉ name.drop 1)) := by
  unfold splitName
  by_cases hdd : name = ['.', '.']
  · exact .inr ⟨by rw [if_pos hdd], .inl hdd⟩
  rw [if_neg hdd, List.span_eq_takeWhile_dropWhile]
  -- the characters after the last dot, read backwards
  have hsplit := List.takeWhile_append_dropWhile (p := fun c => c != '.') (l := name.reverse)
  have hafter : '.' ∉ name.reverse.takeWhile (fun c => c != '.') := fun h => by
    simpa using List.mem_takeWhile_imp h
  cases hd : name.reverse.dropWhile (fun c => c != '.') with
  | nil =>
    -- no dot at all
    refine .inr ⟨rfl, .inr fun hmem => hafter ?_⟩
    rw [hd, List.append_nil] at hsplit
    rw [hsplit]
    exact List.mem_reverse.2 (List.mem_of_mem_drop hmem)
  | cons d beforeRev =>
    have hdot : d = '.' := by
      have := List.head?_dropWhile_not (fun c => c != '.') name.reverse
      rw [hd] at this
      simpa using this
    subst hdot
    rw [hd] at hsplit
    have hname : name = beforeRev.reverse ++ '.' ::
        (name.reverse.takeWhile fun c => c != '.').reverse := by
      have hrev := congrArg List.reverse hsplit
      rw [List.reverse_reverse] at hrev
      conv_lhs => rw [← hrev]
      simp
    have hext : '.' ∉ (name.reverse.takeWhile fun c => c != '.').reverse := fun h =>
      hafter (List.mem_reverse.1 h)
    by_cases hb : beforeRev.isEmpty
    · -- the only dot is the first character
      refine .inr ⟨by simp only [hb, if_true], .inr ?_⟩
      rw [List.isEmpty_iff.1 hb] at hname
      rw [hname]
      exact hext
    · refine .inl ⟨_, _, by simp only [hb, Bool.false_eq_true, if_false], hname, ?_, hext⟩
      simpa using hb

theorem eq_of_append_cons_eq {x : Char} {a b c d : List Char} (h : a ++ x :: b = c ++ x :: d)
    (ha : x ∉ a) (hc : x ∉ c) : a = c ∧ b = d := by
  induction a generalizing c with
  | nil =>
    cases c with
    | nil => simpa using h
    | cons y c =>
      rw [List.nil_append, List.cons_append] at h
      obtain ⟨rfl, -⟩ := List.cons.inj h
      simp at hc
  | cons y a ih =>
    cases c with
    | nil =>
      rw [List.nil_append, List.cons_append] at h
      obtain ⟨rfl, -⟩ := List.cons.inj h
      simp at ha
    | cons z c =>
      rw [List.cons_append, List.cons_append] at h
      obtain ⟨rfl, htail⟩ := List.cons.inj h
      obtain ⟨rfl, rfl⟩ := ih htail (fun h' => ha (List.mem_cons_of_mem y h'))
        (fun h' => hc (List.mem_cons_of_mem y h'))
      exact ⟨rfl, rfl⟩

/-- A name with an extension gives no output name that a name without one gives. -/
theorem output_ne_of_ext {stem ext other suffix : List Char} (hstem : stem ≠ [])
    (hother : other = ['.', '.'] ∨ '.' ∉ other.drop 1) (hdots : other ≠ ['.', '.']) :
    stem ++ '.' :: suffix ++ '.' :: ext ≠ other ++ '.' :: suffix := by
  intro h
  rw [List.append_assoc, List.cons_append] at h
  rcases List.append_eq_append_iff.1 h with ⟨a', rfl, ha'⟩ | ⟨c', -, hc'⟩
  · -- `other` is the stem and more: it has a dot after its first character
    cases a' with
    | nil =>
      have := congrArg List.length ha'
      simp at this
    | cons y a'' =>
      obtain ⟨rfl, -⟩ := List.cons.inj ha'
      rcases hother with h' | h'
      · exact hdots h'
      · obtain ⟨s, ss, rfl⟩ := List.exists_cons_of_ne_nil hstem
        exact h' (by simp)
  · have := congrArg List.length hc'
    simp at this
    omega

theorem isComponent_of_fileName? {N : List Char} (h : fileName? cs = some N) :
    isComponent N = true ∧ N ≠ ['.', '.'] := by
  unfold fileName? at h
  split at h
  · split_ifs at h with hc
    cases h
    simpa using hc
  · cases h

/-- Distinct file names have distinct output names. -/
theorem outputName_injective {cs cs' suffix N N' : List Char} (h : fileName? cs = some N)
    (h' : fileName? cs' = some N') (heq : outputName cs suffix = outputName cs' suffix) :
    N = N' := by
  have hdots := (isComponent_of_fileName? h).2
  have hdots' := (isComponent_of_fileName? h').2
  simp only [outputName, h, h', Option.map_some] at heq
  rcases splitName_spec N with ⟨stem, ext, hs, hN, hstem, hext⟩ | ⟨hs, hN⟩ <;>
    rcases splitName_spec N' with ⟨stem', ext', hs', hN', hstem', hext'⟩ | ⟨hs', hN'⟩ <;>
    rw [hs, hs'] at heq
  · -- both with extensions: the extensions follow the last dot, then the stems agree
    have hrev := congrArg List.reverse heq
    simp only [List.reverse_append, List.reverse_cons, List.append_assoc, List.singleton_append]
      at hrev
    obtain ⟨hext_eq, hrest⟩ := eq_of_append_cons_eq hrev (by simpa using hext)
      (by simpa using hext')
    rw [List.reverse_inj] at hext_eq
    have hstems : stem ++ '.' :: suffix = stem' ++ '.' :: suffix := by
      have := congrArg List.reverse hrest
      simpa using this
    rw [List.append_cancel_right hstems, hext_eq] at hN
    rw [hN, hN']
  · exact absurd heq (output_ne_of_ext hstem hN' hdots')
  · exact absurd heq.symm (output_ne_of_ext hstem' hN hdots)
  · exact List.append_cancel_right heq

theorem outputName_plain {cs suffix N : List Char} (h : fileName? cs = some N) (hN : '/' ∉ N)
    (hsuffix : suffix ≠ []) (hslash : '/' ∉ suffix) :
    isComponent (outputName cs suffix) = true ∧ outputName cs suffix ≠ ['.', '.'] ∧
      '/' ∉ outputName cs suffix := by
  have hcomp := (isComponent_of_fileName? h).1
  simp only [outputName, h, Option.map_some]
  rcases splitName_spec N with ⟨stem, ext, hs, rfl, hstem, -⟩ | ⟨hs, -⟩ <;> rw [hs]
  · obtain ⟨s, ss, rfl⟩ := List.exists_cons_of_ne_nil hstem
    refine ⟨by simp [isComponent], fun h' => ?_, by simp_all⟩
    have := congrArg List.length h'
    simp at this
    omega
  · have hne : N ≠ [] := by
      rintro rfl
      simp [isComponent] at hcomp
    obtain ⟨n, ns, rfl⟩ := List.exists_cons_of_ne_nil hne
    obtain ⟨x, xs, rfl⟩ := List.exists_cons_of_ne_nil hsuffix
    refine ⟨by simp [isComponent], fun h' => ?_, by simp_all⟩
    have := congrArg List.length h'
    simp at this
    omega

end Path

end Alternation
