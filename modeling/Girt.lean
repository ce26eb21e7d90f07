import Girt.Proofs.SymbolicCycles
import Girt.Proofs.FilesPack
import Girt.Proofs.PackedLines
import Girt.Proofs.ConfigDocument
import Girt.Proofs.Prune
import Girt.Proofs.IndexOrder
import Girt.Proofs.Racy
import Girt.Proofs.Glob
import Girt.Proofs.Pathspec
import Girt.Proofs.CommitSigned
import Girt.Proofs.RetentionPrune
import Girt.Proofs.Connectivity
import Girt.Proofs.Diff
import Girt.Proofs.ContentMerge
import Girt.Proofs.BitmapIndex
import Girt.Proofs.PackCache
import Girt.Proofs.PackWrite
import Girt.Proofs.MergeBases
import Girt.Proofs.Reflog
import Girt.Proofs.Stash
import Girt.Proofs.Ancestry
import Girt.Proofs.ReftableExpire
import Girt.Proofs.Backends
