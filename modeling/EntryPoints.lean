import EntryPoints.Disk.Arrange
import EntryPoints.FileSet
import EntryPoints.Main
import EntryPoints.Proofs.Choice.Foreign
import EntryPoints.Proofs.Choice.Route
import EntryPoints.Proofs.CommandLine.Output
import EntryPoints.Proofs.Expansion.Growth
import EntryPoints.Proofs.Expansion.Passing
import EntryPoints.Proofs.Expansion.Places
import EntryPoints.Proofs.Replace.Atomic
import EntryPoints.Proofs.Resolver.Conditions
import EntryPoints.Proofs.Resolver.Fixpoint
import EntryPoints.Proofs.Resolver.Mounted
import EntryPoints.Proofs.Resolver.Order
import EntryPoints.Proofs.Resolver.Results
import EntryPoints.Proofs.Resolver.Shorthand
import EntryPoints.Proofs.Resolver.Verdict
import EntryPoints.Proofs.Choice.Nesting
import EntryPoints.Proofs.Expansion.Refusal
import EntryPoints.Proofs.CommandLine.Failure
import EntryPoints.Proofs.Expansion.Bijection
import EntryPoints.Proofs.Choice.Written
import EntryPoints.Proofs.Expansion.Precedence
import EntryPoints.Proofs.Expansion.Spelling
import EntryPoints.Proofs.PathSet.Listing
import EntryPoints.Proofs.Pattern.Capture
import EntryPoints.Proofs.Path.Slashed
