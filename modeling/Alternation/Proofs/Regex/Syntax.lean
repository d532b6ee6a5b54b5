import Mathlib.Data.List.Basic

/-!
# Regular expressions of the pattern dialect

The dialect the patterns are written for is that of the regular expression library the tests
compile them with. This module models a fragment of it: literal characters, characters escaped
with a backslash, bracketed classes of single characters, groups, capturing or not, alternation
with `|`, and the repetition operators `?`, `*` and `+`, greedy or lazy. What a pattern means is
`Regex.Matches`, the strings a syntax tree matches as a whole; a pattern `p` matches `s` under
`^(?:p)$` exactly when its tree matches all of `s`, since the anchors stand at the ends of the
text and `p` holds none of its own.

The reader takes a pattern one character at a time. Between pieces it keeps a frame for the
group it is in and one for every enclosing group; inside a class it keeps the characters read so
far. It follows the library's parser on the fragment and refuses everything outside it: other
escapes, counted repetitions, the dot, anchors, flags and named groups, a repetition of a
repetition, and in a class negation, ranges, nested classes, set operations and a leading `]`
or `-`. So every pattern the reader accepts is one the library accepts, with the same tree. The
library's configurable limits, on nesting depth and on compiled size, are not part of the
syntax.

Main results:

* `Regex`: syntax trees; `Regex.Matches`: the strings they match.
* `Regex.step`: reading one character; `Regex.parse`: reading a whole pattern.
-/

namespace Alternation

/-- How often a repeated expression matches: at most once, any number of times, at least once. -/
inductive Repetition where
  | zeroOrOne
  | zeroOrMore
  | oneOrMore
deriving DecidableEq, Repr

/-- Syntax trees of the fragment. An alternation lists its branches, each a sequence of
    pieces; a group stands as the alternation of its branches. -/
inductive Regex where
  | lit (c : Char)
  | set (cs : List Char)
  | alt (branches : List (List Regex))
  | rep (kind : Repetition) (greedy : Bool) (r : Regex)
deriving Inhabited

namespace Regex

mutual

/-- The strings a syntax tree matches as a whole. Greediness decides which match is found
    first, not whether there is one. -/
inductive Matches : Regex → List Char → Prop
  | lit (c : Char) : Matches (.lit c) [c]
  | set {c : Char} {cs : List Char} : c ∈ cs → Matches (.set cs) [c]
  | alt {bs : List (List Regex)} {ps : List Regex} {s : List Char} :
      ps ∈ bs → MatchesSeq ps s → Matches (.alt bs) s
  | skip {k : Repetition} {g : Bool} {r : Regex} : k ≠ .oneOrMore → Matches (.rep k g r) []
  | once {g : Bool} {r : Regex} {s : List Char} : Matches r s → Matches (.rep .zeroOrOne g r) s
  | more {k : Repetition} {g : Bool} {r : Regex} {s t : List Char} : k ≠ .zeroOrOne →
      Matches r s → Matches (.rep .zeroOrMore g r) t → Matches (.rep k g r) (s ++ t)

/-- The strings a sequence of pieces matches as a whole. -/
inductive MatchesSeq : List Regex → List Char → Prop
  | nil : MatchesSeq [] []
  | cons {r : Regex} {rs : List Regex} {s t : List Char} :
      Matches r s → MatchesSeq rs t → MatchesSeq (r :: rs) (s ++ t)

end

/-- Whether a tree is a repetition; a repetition operator after one is outside the fragment. -/
def isRep : Regex → Bool
  | .rep _ _ _ => true
  | _ => false

/-! ## Reading patterns -/

/-- The characters that an escape makes literal: those with a meaning of their own somewhere in
    the library's syntax. -/
def metaChars : List Char :=
  ['\\', '.', '+', '*', '?', '(', ')', '|', '[', ']', '\x7b', '\x7d', '^', '$', '#', '&', '-', '~']

/-- The characters with a meaning of their own outside a class. -/
def syntaxChars : List Char :=
  ['\\', '(', ')', '|', '[', '?', '*', '+', '\x7b', '.', '^', '$']

/-- The characters with a meaning of their own inside a class. -/
def classSyntaxChars : List Char :=
  [']', '\\', '[', '-', '&', '~']

/-- A group being read: the branches read so far and the pieces of the current one, latest
    first. -/
structure Frame where
  alts : List (List Regex)
  cur : List Regex

namespace Frame

/-- The frame a group starts with. -/
def empty : Frame := ⟨[], []⟩

/-- The branches of the group, in order, the current one last. -/
def branches (f : Frame) : List (List Regex) :=
  (f.cur.reverse :: f.alts).reverse

/-- The frame with one more piece in the current branch. -/
def push (f : Frame) (r : Regex) : Frame :=
  ⟨f.alts, r :: f.cur⟩

/-- A repetition operator applies to the last piece. A `?` right after a greedy repetition makes
    it lazy; any other operator after a repetition, or one with no piece before it, is refused. -/
def repeatLast (f : Frame) (k : Repetition) : Option Frame :=
  match f.cur, k with
  | .rep k' true r :: rest, .zeroOrOne => some ⟨f.alts, .rep k' false r :: rest⟩
  | .rep _ _ _ :: _, _ => none
  | p :: rest, k => some ⟨f.alts, .rep k true p :: rest⟩
  | [], _ => none

end Frame

/-- Where the reader is: between pieces, after a backslash, after `(` or `(?`, at the start of a
    class, inside a class with the characters read so far (latest first), after a backslash in a
    class, or after a lone `&` or `~` in a class, which a second one would make an operator. -/
inductive Mode where
  | normal
  | escape
  | groupOpen
  | groupQuery
  | classOpen
  | classItems (items : List Char)
  | classEscape (items : List Char)
  | classPending (c : Char) (items : List Char)

/-- The state of the reader: its mode, the innermost group and the enclosing groups. -/
structure Reader where
  mode : Mode
  top : Frame
  below : List Frame

/-- The reader before the first character. -/
def Reader.init : Reader :=
  ⟨.normal, .empty, []⟩

/-- Reads a character between pieces. -/
def readNormal (top : Frame) (below : List Frame) (c : Char) : Option Reader :=
  if c ∉ syntaxChars then some ⟨.normal, top.push (.lit c), below⟩
  else if c = '\\' then some ⟨.escape, top, below⟩
  else if c = '(' then some ⟨.groupOpen, top, below⟩
  else if c = ')' then
    match below with
    | [] => none
    | parent :: rest => some ⟨.normal, parent.push (.alt top.branches), rest⟩
  else if c = '|' then some ⟨.normal, ⟨top.cur.reverse :: top.alts, []⟩, below⟩
  else if c = '[' then some ⟨.classOpen, top, below⟩
  else if c = '?' then (top.repeatLast .zeroOrOne).map fun f => ⟨.normal, f, below⟩
  else if c = '*' then (top.repeatLast .zeroOrMore).map fun f => ⟨.normal, f, below⟩
  else if c = '+' then (top.repeatLast .oneOrMore).map fun f => ⟨.normal, f, below⟩
  -- counted repetitions, the dot and the anchors are outside the fragment
  else none

/-- Reads a character inside a class after the characters `items`. -/
def readClass (top : Frame) (below : List Frame) (items : List Char) (c : Char) : Option Reader :=
  if c ∉ classSyntaxChars then some ⟨.classItems (c :: items), top, below⟩
  else if c = ']' then some ⟨.normal, top.push (.set items.reverse), below⟩
  else if c = '\\' then some ⟨.classEscape items, top, below⟩
  else if c = '&' ∨ c = '~' then some ⟨.classPending c items, top, below⟩
  -- nested classes, ranges and differences are outside the fragment
  else none

/-- Reads one character. -/
def step (r : Reader) (c : Char) : Option Reader :=
  match r.mode with
  | .normal => readNormal r.top r.below c
  | .escape => if c ∈ metaChars then some ⟨.normal, r.top.push (.lit c), r.below⟩ else none
  | .groupOpen =>
    if c = '?' then some ⟨.groupQuery, r.top, r.below⟩ else readNormal .empty (r.top :: r.below) c
  | .groupQuery => if c = ':' then some ⟨.normal, .empty, r.top :: r.below⟩ else none
  | .classOpen =>
    if c = '^' ∨ c = ']' ∨ c = '-' then none else readClass r.top r.below [] c
  | .classItems items => readClass r.top r.below items c
  | .classEscape items =>
    if c ∈ metaChars then some ⟨.classItems (c :: items), r.top, r.below⟩ else none
  | .classPending d items => if c = d then none else readClass r.top r.below (d :: items) c

/-- The syntax tree of a pattern, when the reader accepts it: every group and class closed, and
    the reader between pieces at the end. -/
def parse (p : List Char) : Option Regex :=
  match p.foldlM step Reader.init with
  | some ⟨.normal, top, []⟩ => some (.alt top.branches)
  | _ => none

/-! ## Matching, constructor by constructor -/

@[simp]
theorem matches_lit_iff {c : Char} {s : List Char} : Matches (.lit c) s ↔ s = [c] := by
  constructor
  · rintro ⟨⟩
    rfl
  · rintro rfl
    exact .lit c

@[simp]
theorem matches_set_iff {cs s : List Char} : Matches (.set cs) s ↔ ∃ c ∈ cs, s = [c] := by
  constructor
  · intro h
    cases h with
    | set hc => exact ⟨_, hc, rfl⟩
  · rintro ⟨c, hc, rfl⟩
    exact .set hc

theorem matches_alt_iff {bs : List (List Regex)} {s : List Char} :
    Matches (.alt bs) s ↔ ∃ ps ∈ bs, MatchesSeq ps s := by
  constructor
  · intro h
    cases h with
    | alt hps hm => exact ⟨_, hps, hm⟩
  · rintro ⟨ps, hps, hm⟩
    exact .alt hps hm

theorem matches_opt_iff {g : Bool} {r : Regex} {s : List Char} :
    Matches (.rep .zeroOrOne g r) s ↔ s = [] ∨ Matches r s := by
  constructor
  · intro h
    cases h with
    | skip => exact .inl rfl
    | once hm => exact .inr hm
    | more hk => exact absurd rfl hk
  · rintro (rfl | hm)
    · exact .skip (by decide)
    · exact .once hm

@[simp]
theorem matchesSeq_nil_iff {s : List Char} : MatchesSeq [] s ↔ s = [] := by
  constructor
  · rintro ⟨⟩
    rfl
  · rintro rfl
    exact .nil

theorem matchesSeq_cons_iff {r : Regex} {rs : List Regex} {s : List Char} :
    MatchesSeq (r :: rs) s ↔ ∃ u v, s = u ++ v ∧ Matches r u ∧ MatchesSeq rs v := by
  constructor
  · intro h
    cases h with
    | cons hr hrs => exact ⟨_, _, rfl, hr, hrs⟩
  · rintro ⟨u, v, rfl, hr, hrs⟩
    exact .cons hr hrs

@[simp]
theorem matchesSeq_singleton_iff {r : Regex} {s : List Char} : MatchesSeq [r] s ↔ Matches r s := by
  rw [matchesSeq_cons_iff]
  constructor
  · rintro ⟨u, v, rfl, hr, hv⟩
    rw [matchesSeq_nil_iff.1 hv, List.append_nil]
    exact hr
  · intro hr
    exact ⟨s, [], (List.append_nil s).symm, hr, .nil⟩

/-- A sequence of two parts matches the strings cut into a match of each. -/
theorem matchesSeq_append_iff {ps qs : List Regex} {s : List Char} :
    MatchesSeq (ps ++ qs) s ↔ ∃ u v, s = u ++ v ∧ MatchesSeq ps u ∧ MatchesSeq qs v := by
  induction ps generalizing s with
  | nil =>
    simp only [List.nil_append, matchesSeq_nil_iff]
    constructor
    · intro h
      exact ⟨[], s, rfl, rfl, h⟩
    · rintro ⟨u, v, rfl, rfl, hv⟩
      exact hv
  | cons r ps ih =>
    rw [List.cons_append, matchesSeq_cons_iff]
    constructor
    · rintro ⟨u, v, rfl, hr, hv⟩
      obtain ⟨v₁, v₂, rfl, h₁, h₂⟩ := ih.1 hv
      exact ⟨u ++ v₁, v₂, (List.append_assoc _ _ _).symm, .cons hr h₁, h₂⟩
    · rintro ⟨u, v, rfl, hu, hv⟩
      obtain ⟨u₁, u₂, rfl, h₁, h₂⟩ := matchesSeq_cons_iff.1 hu
      exact ⟨u₁, u₂ ++ v, List.append_assoc _ _ _, h₁, ih.2 ⟨u₂, v, rfl, h₂, hv⟩⟩

end Regex

end Alternation
