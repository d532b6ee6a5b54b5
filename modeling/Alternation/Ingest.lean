import Alternation.Failure
import Alternation.Json.Read
import Alternation.Trie.Basic

/-!
# From raw input to a trie

Raw input is either text cut into values by the settings, or a JSON array whose items are the
values. The values are added to an empty trie, strictly when the settings say so.

Main results:

* `Ingest.values`: the candidates of a raw input.
* `Ingest.trie`: the trie of a raw input, or why there is none.
-/

namespace Alternation

namespace Ingest

/-- The candidates of a raw input: the items of a JSON array, or the texts that the settings
    cut the input into. -/
def values (raw : String) (s : Settings) (json : Bool) : Except Failure (List Candidate) :=
  if json then
    match Json.parse? raw with
    | some (.array items) => .ok (items.map Candidate.ofJson)
    | _ => .error ⟨["Input is not a valid JSON array"], .json⟩
  else .ok ((s.splitValues raw).map Candidate.text)

/-- The trie of a raw input; a strict addition that meets a value without text fails. -/
def trie (raw : String) (s : Settings) (json : Bool) : Except Failure Trie := do
  let vs ← values raw s json
  match Trie.empty.add vs s.strict with
  | (.ok _, t) => pure t
  | (.error u, _) => throw ⟨["Input contains a value that cannot be added"], .coercion u⟩

end Ingest

end Alternation
