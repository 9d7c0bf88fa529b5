import TermText.Main
import TermText.Proofs.Cli.Agreement
import TermText.Proofs.Cli.Failure
import TermText.Proofs.Declaration.Agreement
import TermText.Proofs.Declaration.SafeLines
import TermText.Proofs.Declaration.Unsharing
import TermText.Proofs.Dump.Blame
import TermText.Proofs.Dump.Calls
import TermText.Proofs.Dump.Contents
import TermText.Proofs.Dump.Escape
import TermText.Proofs.Dump.Identity
import TermText.Proofs.Dump.Invariant
import TermText.Proofs.Dump.Rearranging
import TermText.Proofs.Dump.Rewriting
import TermText.Proofs.Dump.Sharing
import TermText.Proofs.Export.Delivery
import TermText.Proofs.Export.Exportable
import TermText.Proofs.Export.Lines
import TermText.Proofs.Export.Report
import TermText.Proofs.Export.Trace
import TermText.Proofs.Files.Storing
import TermText.Proofs.Fingerprint.Separation
import TermText.Proofs.Json.Rereading
import TermText.Proofs.Json.Tokens
import TermText.Proofs.Name.Collision
import TermText.Proofs.Name.Parsing
import TermText.Proofs.Name.Preimages
import TermText.Proofs.Sharing.Counting
import TermText.Proofs.Sharing.Recursion
import TermText.Proofs.Term.Flattening
import TermText.Proofs.Term.Invariant
import TermText.Proofs.Term.Spine
import TermText.Proofs.Value.Equality
import TermText.Proofs.Value.Readability
import TermText.Value.Draft
