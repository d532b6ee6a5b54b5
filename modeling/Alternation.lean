import Alternation.Decimal.Shortest
import Alternation.Decimal.Layout
import Alternation.Decimal.Read
import Alternation.Json.Basic
import Alternation.Json.Read
import Alternation.Json.Write
import Alternation.Candidate
import Alternation.Trie.Node
import Alternation.Trie.Basic
import Alternation.Pattern.Escape
import Alternation.Pattern.Body
import Alternation.Pattern.Walk
import Alternation.Pattern.Wrap
import Alternation.Text.Blank
import Alternation.Text.Split
import Alternation.Settings.Basic
import Alternation.Path
import Alternation.Failure
import Alternation.Ingest
import Alternation.Yaml.Cursor
import Alternation.Yaml.Token
import Alternation.Yaml.Token.Scalar
import Alternation.Yaml.Token.Property
import Alternation.Yaml.Token.Lexer
import Alternation.Yaml.Event
import Alternation.Yaml.Document
import Alternation.Settings.Load
import Alternation.Cli.Args
import Alternation.Cli.Workspace
import Alternation.Cli.Run
import Alternation.Main
import Alternation.Proofs.Trie.Shape
import Alternation.Proofs.Trie.Insertion
import Alternation.Proofs.Trie.Reachable
import Alternation.Proofs.Trie.Addition
import Alternation.Proofs.Pattern.Stack
import Alternation.Proofs.Regex.Reading
import Alternation.Proofs.Regex.Language
import Alternation.Proofs.Pattern.Atoms
import Alternation.Proofs.Pattern.Meaning
import Alternation.Proofs.Text.Lines
import Alternation.Proofs.Path.Output
import Alternation.Proofs.Path.Sibling
import Alternation.Proofs.Cli.Files
import Alternation.Proofs.Cli.Batch
import Alternation.Proofs.Decimal.Interval
import Alternation.Proofs.Decimal.Text
import Alternation.Proofs.Float.Rounding
import Alternation.Proofs.Float.Bits
import Alternation.Proofs.Float.Scientific
import Alternation.Proofs.Decimal.RoundTrip
