import ConceptScript.Files.Tree
import ConceptScript.Main
import ConceptScript.Proofs.Buffer.Discipline
import ConceptScript.Proofs.Buffer.Separation
import ConceptScript.Proofs.Compiler.Sharing
import ConceptScript.Proofs.Expansion.Confluence
import ConceptScript.Proofs.Expansion.Bound
import ConceptScript.Proofs.Model.Bookkeeping
import ConceptScript.Proofs.Model.Canonical
import ConceptScript.Proofs.Model.Cycles
import ConceptScript.Proofs.Model.Integrity
import ConceptScript.Proofs.Model.Views
import ConceptScript.Proofs.PropertyList.Brackets
import ConceptScript.Proofs.Registry.Depth
import ConceptScript.Proofs.Sample.Saturated
import ConceptScript.Proofs.Sample.Schema
import ConceptScript.Proofs.Statement.Choice
import ConceptScript.Proofs.Statement.Concatenation
import ConceptScript.Proofs.Statement.Denotation
import ConceptScript.Proofs.Statement.Flat
import ConceptScript.Proofs.Statement.Range
import ConceptScript.Proofs.Statement.Unmatched
import ConceptScript.Proofs.Token.Lines
import ConceptScript.Proofs.Token.Segments
