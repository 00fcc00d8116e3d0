import Mediation.Artifact.Json
import Mediation.Graph.Tree
import Mediation.Repository.Disk
import Mediation.Repository.Operation
import Mediation.Resolution.Request
import Mediation.Settings.Layers
import Mediation.Source.Catalog
import Mediation.Transform.Deployment
import Mediation.Proofs.Version.Order
import Mediation.Proofs.Version.Identity
import Mediation.Proofs.Constraint.Latitude
import Mediation.Proofs.Constraint.Meeting
import Mediation.Proofs.Constraint.Narrowing
import Mediation.Proofs.Graph.Visible
import Mediation.Proofs.Graph.Site
import Mediation.Proofs.Graph.Level
import Mediation.Proofs.Graph.Search
import Mediation.Proofs.Graph.Printing
import Mediation.Proofs.Collection.Move
import Mediation.Proofs.Collection.Subtree
import Mediation.Proofs.Collection.Effect
import Mediation.Proofs.Collection.Sound
import Mediation.Proofs.Collection.Loss
import Mediation.Proofs.Collection.Gain
import Mediation.Proofs.Collection.Sprout
import Mediation.Proofs.Collection.Steady
import Mediation.Proofs.Collection.Waiting
import Mediation.Proofs.Collection.Fade
import Mediation.Proofs.Collection.Debt
import Mediation.Proofs.Collection.Balance
import Mediation.Proofs.Collection.Outlay
import Mediation.Proofs.Collection.Offspring
import Mediation.Proofs.Collection.Discovery
import Mediation.Proofs.Collection.Origin
import Mediation.Proofs.Collection.Facing
import Mediation.Proofs.Collection.Candor
import Mediation.Proofs.Collection.Standing
import Mediation.Proofs.Collection.Widening
import Mediation.Proofs.Collection.Rescoping
import Mediation.Proofs.Collection.Setback
import Mediation.Proofs.Collection.Recurrence
import Mediation.Proofs.Collection.Leniency
import Mediation.Proofs.Collection.Pointing
import Mediation.Proofs.Run.Evidence
import Mediation.Proofs.Run.Registration
import Mediation.Proofs.Run.Course
import Mediation.Proofs.Run.Outcome
import Mediation.Proofs.Run.Ending
import Mediation.Proofs.Run.History
import Mediation.Proofs.Run.Strictness
import Mediation.Proofs.Resolution.Winners
import Mediation.Proofs.Resolution.Terms
import Mediation.Proofs.Resolution.Nearest
import Mediation.Proofs.Resolution.Chase
import Mediation.Proofs.Resolution.Lasting
import Mediation.Proofs.Resolution.Ranking
import Mediation.Proofs.Resolution.Range
import Mediation.Proofs.Resolution.Agreement
import Mediation.Proofs.Breadth.Roster
import Mediation.Proofs.Breadth.Spawn
import Mediation.Proofs.Collection.Tenure
import Mediation.Proofs.Breadth.Mirror
import Mediation.Proofs.Breadth.Tidy
import Mediation.Proofs.Breadth.Calm
import Mediation.Proofs.Run.Timely
import Mediation.Proofs.Breadth.Pace
import Mediation.Proofs.Breadth.Refinement
import Mediation.Proofs.Resolution.Closure
import Mediation.Proofs.Resolution.Scopes
import Mediation.Proofs.Resolution.Classpath
import Mediation.Proofs.Resolution.Problems
import Mediation.Proofs.Resolution.Trails
import Mediation.Proofs.Resolution.Subtrees
import Mediation.Proofs.Resolution.Pins
import Mediation.Proofs.Resolution.Pointers
import Mediation.Proofs.Resolution.Refusal
import Mediation.Proofs.Constraint.Selection
import Mediation.Proofs.Run.Encounter
import Mediation.Proofs.Resolution.Rebuilding
import Mediation.Proofs.Resolution.Convergence
import Mediation.Proofs.Text.Digits
import Mediation.Proofs.Time.Calendar
import Mediation.Proofs.Version.Build
import Mediation.Proofs.Repository.Asking
import Mediation.Proofs.Repository.Reading
import Mediation.Proofs.Repository.Offline
import Mediation.Proofs.Repository.Interruption
import Mediation.Proofs.Repository.Separation
import Mediation.Proofs.Repository.Traffic
import Mediation.Proofs.Metadata.Newest
import Mediation.Proofs.Metadata.Repetition
import Mediation.Proofs.Transform.Pipeline
import Mediation.Proofs.Transform.Publication
import Mediation.Proofs.Transform.Succession
import Mediation.Proofs.Transform.Numbering
import Mediation.Proofs.Resolution.Rejection
import Mediation.Proofs.Digraph.Walk
import Mediation.Proofs.Digraph.Components
import Mediation.Proofs.Resolution.Precedence
import Mediation.Proofs.Text.Trim
import Mediation.Proofs.Constraint.Spelling
import Mediation.Proofs.Constraint.Listing
import Mediation.Proofs.Constraint.Rereading
import Mediation.Proofs.Constraint.Recording
import Mediation.Proofs.Constraint.Ascent
import Mediation.Proofs.Version.Snapshot
import Mediation.Proofs.Text.Letters
import Mediation.Proofs.Text.Magnitude
import Mediation.Proofs.Version.Token
import Mediation.Proofs.Version.Cutting
import Mediation.Proofs.Version.Spelling
import Mediation.Proofs.Version.Numeric
import Mediation.Proofs.Constraint.Choice
import Mediation.Proofs.Resolution.Accounting
import Mediation.Proofs.Text.Pieces
import Mediation.Proofs.Metadata.Layout
import Mediation.Proofs.Repository.Place
import Mediation.Proofs.Repository.Writing
import Mediation.Proofs.Json.Record
import Mediation.Proofs.Json.Rereading
import Mediation.Proofs.Json.Field
import Mediation.Proofs.Metadata.Document
import Mediation.Proofs.Repository.Filing
import Mediation.Proofs.Repository.Confinement
import Mediation.Proofs.Settings.Layering
import Mediation.Proofs.Settings.Repositories
import Mediation.Proofs.Time.Duration
import Mediation.Proofs.Coordinate.Rereading
import Mediation.Proofs.Artifact.Document
