import Apportion.Cursor
import Apportion.Decimal.Fixed
import Apportion.Disk.Contents
import Apportion.Catalog
import Apportion.Commands
import Apportion.Disk.Store
import Apportion.Plan.Basic
import Apportion.Session
import Apportion.Settings.Document
import Apportion.Settings.Environment
import Apportion.Main
import Apportion.Proofs.Locality.Order
import Apportion.Proofs.Locality.BlockSize
import Apportion.Proofs.Locality.Cut
import Apportion.Proofs.Locality.Shares
import Apportion.Proofs.Locality.DistinctHosts
import Apportion.Proofs.Plan.LocalHosts
import Apportion.Proofs.Plan.Delivery
import Apportion.Proofs.Plan.GroupSize
import Apportion.Proofs.Split.Layout
import Apportion.Proofs.Split.Ends
import Apportion.Proofs.Tiling
import Apportion.Proofs.Tally.History
import Apportion.Proofs.Tally.Ranks
import Apportion.Proofs.Disk.Blocks
import Apportion.Proofs.Disk.Lineage
import Apportion.Proofs.Disk.Additions
import Apportion.Proofs.Disk.Barred
import Apportion.Proofs.Disk.Handles
import Apportion.Proofs.Store.Agreement
import Apportion.Proofs.Store.Answers
import Apportion.Proofs.Store.Mirror
import Apportion.Proofs.Store.Missing
import Apportion.Proofs.Store.Coherence
import Apportion.Proofs.Descriptor.Canonical
import Apportion.Proofs.Decimal.Padded
import Apportion.Proofs.Session
import Apportion.Proofs.Disk.Directories
import Apportion.Proofs.Discovery
import Apportion.Proofs.Commands.Leftovers
import Apportion.Proofs.Cursor.Runs
import Apportion.Proofs.Descriptor.Notation
import Apportion.Proofs.Commands.Description
import Apportion.Proofs.Commands.Interruption
import Apportion.Proofs.Split.Rounds
import Apportion.Proofs.Commands.Inspection
import Apportion.Proofs.Settings.Overrides
import Apportion.Proofs.Settings.Document
