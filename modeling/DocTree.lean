import DocTree.Bytes.LittleEndian.Lemmas
import DocTree.Main
import DocTree.Proofs.Content.ReadBack
import DocTree.Proofs.Disk.Staging
import DocTree.Proofs.Kernel.Changes
import DocTree.Proofs.Kernel.Numbering
import DocTree.Proofs.Kernel.Pages
import DocTree.Proofs.Path.Canonical
import DocTree.Proofs.Run.Cleanup
import DocTree.Proofs.Run.Contention
import DocTree.Proofs.Run.Failure
import DocTree.Proofs.Run.Frame
import DocTree.Proofs.Run.Growth
import DocTree.Proofs.Run.Isolation
import DocTree.Proofs.Run.Keys
import DocTree.Proofs.Run.Listed
import DocTree.Proofs.Run.Listing
import DocTree.Proofs.Run.Order
import DocTree.Proofs.Run.Overtaken
import DocTree.Proofs.Run.Remount
import DocTree.Proofs.Run.Restart
import DocTree.Proofs.Run.Shrink
import DocTree.Proofs.Run.Siblings
import DocTree.Proofs.Run.Tree
import DocTree.Proofs.Store.Refines
import DocTree.Session
