import Wiring.Classes.Basic
import Wiring.Classes.Generated
import Wiring.Classes.Lookup
import Wiring.Compile.Batch
import Wiring.Compile.Demand
import Wiring.Compile.Layout
import Wiring.Compile.Prepare
import Wiring.Compile.Save
import Wiring.Compile.Source
import Wiring.Compile.Unit
import Wiring.Compile.Weave
import Wiring.Failure
import Wiring.Files
import Wiring.Graph.Binding
import Wiring.Graph.Container
import Wiring.Graph.Json
import Wiring.Graph.Key
import Wiring.Graph.MapBinding
import Wiring.Graph.Module
import Wiring.Graph.Pointcut
import Wiring.Injector.Cache
import Wiring.Injector.Factory
import Wiring.Injector.Objects
import Wiring.Injector.Resolve
import Wiring.Injector.Snapshot
import Wiring.Injector.World
import Wiring.Json.Basic
import Wiring.Json.Decode
import Wiring.Json.Reader
import Wiring.Number.Binary64
import Wiring.Number.Decimal
import Wiring.Number.Word
import Wiring.Script.Alphabet
import Wiring.Script.Parser
import Wiring.Script.Printer
import Wiring.Script.Run
import Wiring.Script.Syntax
import Wiring.Script.Token
import Wiring.Site
import Wiring.Table
import Wiring.Text.Base64
import Wiring.Value.Attach
import Wiring.Value.Basic
import Wiring.Value.Equality
import Wiring.Value.Json
import Wiring.Value.Keyed
import Wiring.Value.Tree
import Wiring.Proofs.Classes.Descending
import Wiring.Proofs.Compile.Advising
import Wiring.Proofs.Compile.Logging
import Wiring.Proofs.Compile.Preparing
import Wiring.Proofs.Compile.Skipping
import Wiring.Proofs.Graph.Blending
import Wiring.Proofs.Graph.Cycles
import Wiring.Proofs.Graph.Elements
import Wiring.Proofs.Graph.Installing
import Wiring.Proofs.Graph.Numbering
import Wiring.Proofs.Injector.Caching
import Wiring.Proofs.Injector.Coherence
import Wiring.Proofs.Injector.CompilingOnce
import Wiring.Proofs.Injector.Defaulting
import Wiring.Proofs.Injector.Maps
import Wiring.Proofs.Injector.NullObjects
import Wiring.Proofs.Injector.Prototypes
import Wiring.Proofs.Script.Faults
import Wiring.Proofs.Script.Quoting
import Wiring.Proofs.Script.Reprinting
import Wiring.Proofs.Value.Appending
import Wiring.Proofs.Value.Equality
import Wiring.Proofs.Value.Plain
