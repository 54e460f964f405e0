import MinimalSsa.Compilation
import MinimalSsa.Dominance.Cache
import MinimalSsa.Dominance.Removal
import MinimalSsa.Draft
import MinimalSsa.Method.Shape
import MinimalSsa.Proofs.Compilation
import MinimalSsa.Proofs.Reaching
import MinimalSsa.Proofs.Removal
import MinimalSsa.Proofs.Entry
import MinimalSsa.Proofs.Editing
import MinimalSsa.Proofs.Report
import MinimalSsa.Proofs.Listing
import MinimalSsa.Proofs.Layout
import MinimalSsa.Proofs.Totality
import MinimalSsa.Proofs.DepthFirst
import MinimalSsa.Proofs.Tree
import MinimalSsa.Proofs.Diagnosis
import MinimalSsa.Proofs.Execution
import MinimalSsa.Proofs.Verdict
import MinimalSsa.Proofs.Overwriting
import MinimalSsa.Proofs.Coherence
import MinimalSsa.Proofs.Collection
import MinimalSsa.Proofs.Shape
import MinimalSsa.Proofs.Printing
import MinimalSsa.Proofs.Meeting
import MinimalSsa.Proofs.Convergence
