import ApiManifest.Catalog.Basic
import ApiManifest.Embed.Sink
import ApiManifest.Json.Reader
import ApiManifest.Main
import ApiManifest.Proofs.Results
import ApiManifest.Proofs.Text.Utf8
import ApiManifest.Proofs.Yaml.Places
import ApiManifest.Proofs.Yaml.Steps
import ApiManifest.Proofs.Json.Strings
import ApiManifest.Proofs.Json.Tokens
import ApiManifest.Proofs.Json.Scan
import ApiManifest.Proofs.Json.Nodes
import ApiManifest.Proofs.Json.Readable
import ApiManifest.Proofs.Number.Integer
import ApiManifest.Proofs.Json.ReadBack
import ApiManifest.Proofs.Manifest.Record
import ApiManifest.Proofs.Manifest.Compact
import ApiManifest.Proofs.Yaml.Scalar.Plain
import ApiManifest.Proofs.Yaml.Scalar.Single
import ApiManifest.Proofs.Yaml.Scalar.Double
import ApiManifest.Proofs.Yaml.Scalar.Literal
import ApiManifest.Proofs.Yaml.Block
import ApiManifest.Proofs.Manifest.Lines
import ApiManifest.Proofs.Manifest.Rendered
import ApiManifest.Proofs.Yaml.Nodes
import ApiManifest.Proofs.Yaml.Values
import ApiManifest.Proofs.Yaml.Nesting
import ApiManifest.Proofs.Catalog.Embedded
import ApiManifest.Proofs.Yaml.Verbatim
import ApiManifest.Proofs.Yaml.Agreement
import ApiManifest.Proofs.Catalog.Documents
import ApiManifest.Proofs.Embed.Source
import ApiManifest.Proofs.Embed.RustSource
import ApiManifest.Proofs.Embed.GoSource
import ApiManifest.Proofs.Files.View
import ApiManifest.Proofs.Files.Walk
import ApiManifest.Proofs.Files.Write
import ApiManifest.Proofs.Files.Writings
import ApiManifest.Proofs.Files.Frame
import ApiManifest.Proofs.Command.Check
import ApiManifest.Proofs.Discovery.Again
import ApiManifest.Proofs.Command.Again
import ApiManifest.Proofs.Path.Lexical
import ApiManifest.Proofs.Files.Steps
import ApiManifest.Proofs.Files.Plain
import ApiManifest.Proofs.Files.Relative
import ApiManifest.Proofs.Command.Paths
import ApiManifest.Proofs.Command.Frame
import ApiManifest.Proofs.Yaml.Merged
import ApiManifest.Proofs.Yaml.Yields
import ApiManifest.Proofs.Yaml.Objects
import ApiManifest.Proofs.Discovery.Partition
import ApiManifest.Proofs.Discovery.Validated
import ApiManifest.Proofs.Embed.GoCharacters
import ApiManifest.Proofs.Embed.PackageName
import ApiManifest.Proofs.Catalog.Table
import ApiManifest.Proofs.Catalog.Listed
import ApiManifest.Proofs.Catalog.Lookups
import ApiManifest.Proofs.Path.Shortest
import ApiManifest.Proofs.Catalog.Shadowed
import ApiManifest.Proofs.Command.Checksums
import ApiManifest.Proofs.Manifest.Pushes
import ApiManifest.Proofs.Discovery.Logged
import ApiManifest.Proofs.Command.Logged
import ApiManifest.Proofs.Command.Channels
import ApiManifest.Proofs.Path.Following
import ApiManifest.Proofs.Path.Relocation
import ApiManifest.Proofs.Embed.Room
import ApiManifest.Proofs.Number.Layout
import ApiManifest.Proofs.Yaml.KeyTexts
import ApiManifest.Proofs.Json.Reading
import ApiManifest.Proofs.Json.Canonical
import ApiManifest.Proofs.Number.Rounding
import ApiManifest.Proofs.Number.Spelling
import ApiManifest.Proofs.Manifest.Reported
import ApiManifest.Proofs.Discovery.Faults
import ApiManifest.Proofs.Files.Alike
import ApiManifest.Proofs.Discovery.Order
import ApiManifest.Proofs.Yaml.Fields
import ApiManifest.Proofs.Number.Nearest
import ApiManifest.Proofs.Number.Shortest
import ApiManifest.Proofs.Number.Standard
import ApiManifest.Proofs.Yaml.Numbers
import ApiManifest.Proofs.Discovery.Versions
import ApiManifest.Proofs.Catalog.Nests
import ApiManifest.Proofs.Module.Name
import ApiManifest.Proofs.Module.Header
import ApiManifest.Proofs.Files.Lexical
import ApiManifest.Proofs.Text.Lines
import ApiManifest.Proofs.Command.Printed
