import VendorPrefixing.Browser.Requirement
import VendorPrefixing.CommandLine.Disk
import VendorPrefixing.Draft.Edit
import VendorPrefixing.Main
import VendorPrefixing.Proofs.Marking.Local
import VendorPrefixing.Proofs.Marking.OneVendor
import VendorPrefixing.Proofs.Marking.Repeated
import VendorPrefixing.Proofs.Plan.Cache
import VendorPrefixing.Proofs.Plan.Meaning
import VendorPrefixing.Proofs.Plan.Monotone
import VendorPrefixing.Proofs.Sheet.RoundTrip
import VendorPrefixing.Proofs.Draft.Added
import VendorPrefixing.Proofs.Draft.Evolution
import VendorPrefixing.Proofs.Draft.Insertion
import VendorPrefixing.Proofs.Sheet.Moves
import VendorPrefixing.Proofs.Sheet.Append
import VendorPrefixing.Proofs.Sheet.Ink
import VendorPrefixing.Proofs.Sheet.Outside
import VendorPrefixing.Proofs.Sheet.Settled
import VendorPrefixing.Proofs.Sheet.Positions
import VendorPrefixing.Proofs.Sheet.Progress
import VendorPrefixing.Proofs.Value.Call
import VendorPrefixing.Proofs.Feature.Gradient
import VendorPrefixing.Proofs.Feature.Recognition
import VendorPrefixing.Proofs.Feature.Importance
import VendorPrefixing.Proofs.Browser.Query
import VendorPrefixing.Proofs.Browser.Resolution
import VendorPrefixing.Proofs.Sheet.WithoutComments
import VendorPrefixing.Proofs.Draft.Declarations
import VendorPrefixing.Proofs.Draft.Copying
import VendorPrefixing.Proofs.Draft.Fitting
import VendorPrefixing.Proofs.Draft.Uniqueness
import VendorPrefixing.Proofs.Sheet.Structure
import VendorPrefixing.Proofs.Plan.Report
import VendorPrefixing.Proofs.Sheet.Arguments
import VendorPrefixing.Proofs.CommandLine.Recursive
