import Lineage.Blame.Basic
import Lineage.Distinct
import Lineage.Json.Basic
import Lineage.Json.Decimal
import Lineage.Json.Printer
import Lineage.Json.Reader
import Lineage.Number.Basic
import Lineage.Number.Binary64
import Lineage.Number.Layout
import Lineage.Number.Reading
import Lineage.Number.Shortest
import Lineage.OrderedMap
import Lineage.Output.Proxy
import Lineage.Output.Workspace
import Lineage.Output.Write
import Lineage.Pointer.Basic
import Lineage.Pointer.Segment
import Lineage.Pointer.Text
import Lineage.Proofs.Blame.Leaves
import Lineage.Proofs.Blame.Origins
import Lineage.Proofs.Blame.Resolution
import Lineage.Proofs.Output.Leaves
import Lineage.Proofs.Output.Put
import Lineage.Proofs.Pointer.Index
import Lineage.Proofs.Provenance.Ancestors
import Lineage.Proofs.Run.Accounting
import Lineage.Proofs.Run.Explained
import Lineage.Proofs.Run.Frame
import Lineage.Proofs.Run.Jobs
import Lineage.Proofs.Run.Operations
import Lineage.Proofs.Run.Placement
import Lineage.Proofs.Run.Registry
import Lineage.Proofs.Run.Soundness
import Lineage.Proofs.Run.Stages
import Lineage.Proofs.Run.Steps
import Lineage.Proofs.Store.Documents
import Lineage.Proofs.Traversal.Positions
import Lineage.Proofs.Traversal.Pruning
import Lineage.Proofs.Tree.Additions
import Lineage.Proofs.Tree.Growth
import Lineage.Proofs.Tree.Members
import Lineage.Provenance.Mapping
import Lineage.Provenance.Table
import Lineage.Record.Decode
import Lineage.Record.Encode
import Lineage.Run.Basic
import Lineage.Run.Id
import Lineage.Run.Job
import Lineage.Run.NodeTransform
import Lineage.Run.Stage
import Lineage.Run.Transform
import Lineage.Store.Basic
import Lineage.Store.Memory
import Lineage.Text.Printable
import Lineage.Text.Quoted
import Lineage.Transform.SchemaDedup
import Lineage.Traversal.Basic
import Lineage.Traversal.Walk
import Lineage.Tree.Basic
import Lineage.Tree.Conversion
import Lineage.Tree.Copy
import Lineage.Version
import Lineage.Yaml.Basic
import Lineage.Yaml.Resolution
import Lineage.Yaml.Scalar
import Lineage.Yaml.Text
import Lineage.Proofs.Traversal.Copies
import Lineage.Proofs.Traversal.Entering
import Lineage.Proofs.Run.Filling
import Lineage.Proofs.Run.Copying
import Lineage.Proofs.Run.Replicas
import Lineage.Proofs.Traversal.Faithful
import Lineage.Proofs.Blame.Lines
import Lineage.Proofs.Run.Completion
import Lineage.Proofs.Run.Relay
import Lineage.Proofs.Run.Citations
import Lineage.Proofs.Blame.Grounds
import Lineage.Proofs.Run.Pipelines
import Lineage.Proofs.Output.Attempts
import Lineage.Proofs.Run.Requests
import Lineage.Proofs.Run.Untouched
import Lineage.Proofs.Run.Descent
import Lineage.Proofs.Run.Sealing
import Lineage.Proofs.Run.Forgery
import Lineage.Proofs.Traversal.Enumeration
import Lineage.Proofs.Traversal.Listing
import Lineage.Proofs.Tree.Unfolding
import Lineage.Proofs.Traversal.Sharing
import Lineage.Proofs.Traversal.Whole
import Lineage.Proofs.Run.Preservation
import Lineage.Proofs.Run.Histories
import Lineage.Proofs.Traversal.Settling
import Lineage.Proofs.Traversal.Tours
import Lineage.Proofs.Pointer.Text
import Lineage.Proofs.Tree.Copies
import Lineage.Proofs.Tree.Isomorphism
import Lineage.Proofs.Tree.RoundTrip
import Lineage.Proofs.Output.Finality
import Lineage.Proofs.Blame.Leniency
import Lineage.Proofs.Output.Spelling
import Lineage.Proofs.Record.RoundTrip
import Lineage.Proofs.Run.Attribution
import Lineage.Proofs.Traversal.Leaves
import Lineage.Proofs.Output.Expansion
import Lineage.Proofs.Output.Guard
import Lineage.Proofs.Output.Appending
import Lineage.Proofs.Run.Refusals
import Lineage.Proofs.Tree.Renaming
import Lineage.Proofs.Output.Renaming
import Lineage.Proofs.Tree.Closure
import Lineage.Proofs.Run.Continuation
import Lineage.Proofs.Blame.Fringe
import Lineage.Proofs.Pointer.Algebra
import Lineage.Proofs.Run.Reopening
import Lineage.Proofs.Traversal.Shifting
import Lineage.Proofs.Run.Gathering
import Lineage.Proofs.Run.Merging
import Lineage.Proofs.Number.Midpoints
import Lineage.Proofs.Number.Shortest
import Lineage.Proofs.Pointer.Recognition
import Lineage.Proofs.Yaml.Values
import Lineage.Proofs.Number.Text
import Lineage.Proofs.Json.Text
import Lineage.Proofs.Run.Delivery
import Lineage.Proofs.Transform.Grouping
import Lineage.Proofs.Run.Walking
import Lineage.Proofs.Transform.Folding
import Lineage.Proofs.Transform.Inputs
import Lineage.Proofs.Transform.Preserving
