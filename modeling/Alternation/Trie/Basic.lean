import Alternation.Trie.Node
import Alternation.Candidate

/-!
# Member sets as prefix trees

A trie keeps its members twice: as a set of texts, listed in ascending code-point order with
each text once, and as a prefix tree whose paths spell them. It also keeps the unsupported values
that earlier additions met, in the order they were met.

An addition makes one pass over its candidates and coerces each. A strict pass that meets an
unsupported value records it and stops with it, before anything is inserted. Otherwise the texts
met are pruned of those that are members already or came earlier in the batch, and each of the
others is inserted into the tree and into the set; the unsupported values met are recorded.

Main results:

* `Trie.insertMember`: adds a text to the set at its place.
* `Trie.prune`: the texts of a batch that are new, each once.
* `Trie.coerceFrom`: the coercion pass, with its early stop.
* `Trie.add`: the strict or lenient addition; `Trie.addLenient`: the one that cannot fail.
* `Trie.invalid`: the recorded unsupported values, sorted.
-/

namespace Alternation

/-- What an addition did: how many new members it brought, and the candidates it skipped
    because they have no text, in the order met. -/
structure Outcome where
  inserted : Nat
  skipped : List Unsupported
deriving Repr, Inhabited

/-- A member set: the prefix tree, the members in ascending order with each once, and the
    unsupported values met so far in the order met. -/
structure Trie where
  root : Node := Node.empty
  members : List String := []
  rejected : List Unsupported := []
deriving Inhabited

namespace Trie

/-- The trie of no member. -/
def empty : Trie := {}

/-- The unsupported values met so far, sorted by rendering, then by kind. -/
def invalid (t : Trie) : List Unsupported :=
  Unsupported.sort t.rejected

/-- The number of members. -/
def len (t : Trie) : Nat :=
  t.members.length

/-- Whether the trie has no member. -/
def isEmpty (t : Trie) : Bool :=
  t.members.isEmpty

/-- Whether a text is a member. -/
def contains (t : Trie) (s : String) : Bool :=
  t.members.contains s

/-- Adds a text to an ascending list of distinct texts, at its place, unless it is there. -/
def insertMember (s : String) : List String → List String
  | [] => [s]
  | m :: rest =>
    if s < m then s :: m :: rest
    else if s = m then m :: rest
    else m :: insertMember s rest

/-- Inserts a text: its path into the tree, ending at a terminal node, and the text into the
    member set. -/
def insert (t : Trie) (s : String) : Trie :=
  { t with root := t.root.insert s.toList, members := insertMember s t.members }

/-- The texts of a batch that are not members and not in `seen`, each at its first occurrence;
    a text that is kept joins `seen`. -/
def pruneFrom (t : Trie) (seen : List String) : List String → List String
  | [] => []
  | s :: rest =>
    if s ∈ t.members ∨ s ∈ seen then t.pruneFrom seen rest
    else s :: t.pruneFrom (s :: seen) rest

/-- Drops the texts of a batch that are members already or came earlier in the batch. -/
def prune (t : Trie) (texts : List String) : List String :=
  t.pruneFrom [] texts

/-- The coercion pass of an addition over the candidates left, with the texts and the unsupported
    values collected so far. A strict pass that meets an unsupported value records it in the trie
    and stops with it; otherwise the pass collects and leaves the trie alone. -/
def coerceFrom (strict : Bool) (t : Trie) (coerced : List String) (skipped : List Unsupported) :
    List Candidate → Except Unsupported (List String × List Unsupported) × Trie
  | [] => (.ok (coerced, skipped), t)
  | v :: rest =>
    match v.coerce with
    | .ok text => coerceFrom strict t (coerced ++ [text]) skipped rest
    | .error u =>
      if strict then (.error u, { t with rejected := t.rejected ++ [u] })
      else coerceFrom strict t coerced (skipped ++ [u]) rest

/-- Adds candidates. After the coercion pass, the new texts are inserted one by one, the count
    of them is reported, and the unsupported values met are recorded and reported. -/
def add (t : Trie) (vs : List Candidate) (strict : Bool) : Except Unsupported Outcome × Trie :=
  match coerceFrom strict t [] [] vs with
  | (.error u, t) => (.error u, t)
  | (.ok (coerced, skipped), t) =>
    let pruned := t.prune coerced
    let t := pruned.foldl insert t
    (.ok ⟨pruned.length, skipped⟩, { t with rejected := t.rejected ++ skipped })

/-- The lenient addition, which cannot fail: its outcome, or the empty outcome were it to fail. -/
def addLenient (t : Trie) (vs : List Candidate) : Outcome × Trie :=
  match t.add vs false with
  | (.ok o, t) => (o, t)
  | (.error _, t) => (default, t)

/-- The trie of a first batch, added leniently. -/
def ofCandidates (vs : List Candidate) : Trie :=
  (empty.addLenient vs).2

end Trie

end Alternation
