import Nesc.Choice
import Nesc.Decl.Basic
import Nesc.Decl.Render
import Nesc.Kind
import Nesc.Node.Basic
import Nesc.Node.Field
import Nesc.Node.Parts
import Nesc.Rename
import Nesc.Repeats
import Nesc.Scope.Basic
import Nesc.Scope.Facts
import Nesc.Session.Basic
import Nesc.Session.Query
import Nesc.Text
import Nesc.Tree.Basic
import Nesc.Tree.Builder
import Nesc.Tree.Cursor
import Nesc.Proofs.Decl.Admission
import Nesc.Proofs.Decl.Capture
import Nesc.Proofs.Decl.Composition
import Nesc.Proofs.Decl.Declared
import Nesc.Proofs.Decl.Intact
import Nesc.Proofs.Decl.Layout
import Nesc.Proofs.Decl.Reading
import Nesc.Proofs.Decl.References
import Nesc.Proofs.Decl.Renaming
import Nesc.Proofs.Node.Broken
import Nesc.Proofs.Node.Keywords
import Nesc.Proofs.Node.Names
import Nesc.Proofs.Node.Search
import Nesc.Proofs.Node.Shape
import Nesc.Proofs.Rename.Accepted
import Nesc.Proofs.Rename.EditList
import Nesc.Proofs.Rename.Effect
import Nesc.Proofs.Rename.Refused
import Nesc.Proofs.Rename.Resolution
import Nesc.Proofs.Rename.WellFormed
import Nesc.Proofs.Scope.AliasEntries
import Nesc.Proofs.Scope.AliasLookup
import Nesc.Proofs.Scope.AliasMap
import Nesc.Proofs.Scope.Faults
import Nesc.Proofs.Scope.LocalNames
import Nesc.Proofs.Scope.Mirror
import Nesc.Proofs.Scope.NodeKeys
import Nesc.Proofs.Scope.Readable
import Nesc.Proofs.Scope.Specification
import Nesc.Proofs.Scope.Walk
import Nesc.Proofs.Session.Answers
import Nesc.Proofs.Session.Faults
import Nesc.Proofs.Session.Steps
import Nesc.Proofs.Text.Lines
import Nesc.Proofs.Tree.Building
import Nesc.Proofs.Tree.Order
import Nesc.Proofs.Tree.Places
import Nesc.Proofs.Tree.Respelled
import Nesc.Proofs.Tree.Sharing
import Nesc.Proofs.Tree.Storage
