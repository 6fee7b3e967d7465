import Vendoring.Aggregate
import Vendoring.Command.Arguments
import Vendoring.Command.Console
import Vendoring.Command.Execute
import Vendoring.Command.Sites
import Vendoring.Command.Usage
import Vendoring.Decimal.Double
import Vendoring.Decimal.Shortest
import Vendoring.Difference
import Vendoring.Entry
import Vendoring.FileTree.Basic
import Vendoring.FileTree.Changes
import Vendoring.FileTree.Disk
import Vendoring.FileTree.Fault
import Vendoring.FileTree.Walk
import Vendoring.Main
import Vendoring.Manifest.Basic
import Vendoring.Manifest.BuiltIn
import Vendoring.Manifest.Error
import Vendoring.Manifest.File
import Vendoring.Manifest.Reading
import Vendoring.Manifest.Validation
import Vendoring.Manifest.Writing
import Vendoring.Notice
import Vendoring.Patch.Hunk
import Vendoring.Patch.Line
import Vendoring.Patch.Script
import Vendoring.Patch.Slide
import Vendoring.Path
import Vendoring.Proofs.Agenda
import Vendoring.Proofs.Agreement
import Vendoring.Proofs.Attributing
import Vendoring.Proofs.Collisions
import Vendoring.Proofs.Comparing
import Vendoring.Proofs.Confining
import Vendoring.Proofs.Contents
import Vendoring.Proofs.Counting
import Vendoring.Proofs.Creating
import Vendoring.Proofs.Deciding
import Vendoring.Proofs.Delivering
import Vendoring.Proofs.Differing
import Vendoring.Proofs.Enclosing
import Vendoring.Proofs.Exchanging
import Vendoring.Proofs.Following
import Vendoring.Proofs.Footprints
import Vendoring.Proofs.Foretelling
import Vendoring.Proofs.Headings
import Vendoring.Proofs.Including
import Vendoring.Proofs.Lasting
import Vendoring.Proofs.Layout
import Vendoring.Proofs.Listing
import Vendoring.Proofs.Looking
import Vendoring.Proofs.Manifest.Events
import Vendoring.Proofs.Manifest.Readback
import Vendoring.Proofs.Manifest.Tokens
import Vendoring.Proofs.Mirroring
import Vendoring.Proofs.Moving
import Vendoring.Proofs.Names
import Vendoring.Proofs.Ordering
import Vendoring.Proofs.Parents
import Vendoring.Proofs.Patch.Applying
import Vendoring.Proofs.Patch.Editing
import Vendoring.Proofs.Patch.Grouping
import Vendoring.Proofs.Patch.Lines
import Vendoring.Proofs.Patch.Reading
import Vendoring.Proofs.Paving
import Vendoring.Proofs.Performing
import Vendoring.Proofs.Placing
import Vendoring.Proofs.Refreshing
import Vendoring.Proofs.Relisting
import Vendoring.Proofs.Reordering
import Vendoring.Proofs.Repeating
import Vendoring.Proofs.Replacing
import Vendoring.Proofs.Reports
import Vendoring.Proofs.Resting
import Vendoring.Proofs.Resuming
import Vendoring.Proofs.Revising
import Vendoring.Proofs.Saving
import Vendoring.Proofs.Settling
import Vendoring.Proofs.Sparing
import Vendoring.Proofs.Spelling
import Vendoring.Proofs.Stopping
import Vendoring.Proofs.Storing
import Vendoring.Proofs.Synchronized
import Vendoring.Proofs.Trails
import Vendoring.Proofs.Trees
import Vendoring.Proofs.Untracked
import Vendoring.Proofs.Visiting
import Vendoring.Proofs.Walking
import Vendoring.Proofs.Yaml.Allowed
import Vendoring.Proofs.Yaml.Block
import Vendoring.Proofs.Yaml.Cursor
import Vendoring.Proofs.Yaml.Escape
import Vendoring.Proofs.Yaml.Outlining
import Vendoring.Proofs.Yaml.Plain
import Vendoring.Proofs.Yaml.Quoted
import Vendoring.Proofs.Yaml.Reading
import Vendoring.Proofs.Yaml.Styles
import Vendoring.Proofs.Yaml.Taking
import Vendoring.Report.Failure
import Vendoring.Report.Json
import Vendoring.Report.Paint
import Vendoring.Report.Table
import Vendoring.Status
import Vendoring.Sync.Amalgamate
import Vendoring.Sync.Compare
import Vendoring.Sync.Error
import Vendoring.Sync.Run
import Vendoring.Sync.Write
import Vendoring.Text.Quoted
import Vendoring.Text.Visible
import Vendoring.Yaml.Cursor
import Vendoring.Yaml.Document
import Vendoring.Yaml.Event
import Vendoring.Yaml.Mark
import Vendoring.Yaml.Problem
import Vendoring.Yaml.Style
import Vendoring.Yaml.Token
import Vendoring.Yaml.Token.Property
import Vendoring.Yaml.Token.Scalar
import Vendoring.Yaml.Token.Stream
import Vendoring.Yaml.Value
import Vendoring.Yaml.Written
