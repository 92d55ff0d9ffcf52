import PmuMin.Tracker.Interchange
import PmuMin.Tracker.Lifetime
import PmuMin.Tracker.Descent
import PmuMin.Tracker.Foreign
import PmuMin.Hook.Kprobe
import PmuMin.Hook.Unmount
import PmuMin.Client.Gating
import PmuMin.Client.Sampling
import PmuMin.Client.PmiSafety
import PmuMin.Clist.NbBoundedList
import PmuMin.Client.Load
import PmuMin.Breader.Raw
import PmuMin.Hook.Registry
import PmuMin.Client.Reload
import PmuMin.Client.SystemList
import PmuMin.Clist.Retention
import PmuMin.Clist.Carray
import PmuMin.Clist.ReadWait
import PmuMin.Clist.Overlapping
import PmuMin.Clist.Contended
import PmuMin.Client.Pmi
import PmuMin.Client.Rollback
import PmuMin.Client.Filtered
import PmuMin.Client.HookContext
import PmuMin.Breader.RawBounds
import PmuMin.Breader.SeqText
import PmuMin.Tracker.Corruption
import PmuMin.Hook.Usage
import PmuMin.Hook.Kretprobe
import PmuMin.Hook.Tracep
import PmuMin.Client.References
import PmuMin.Breader.Mmap
import PmuMin.Tools.Checksum
import PmuMin.Tools.Termination
import PmuMin.Tracker.Linearizable
import PmuMin.Tracker.PreemptedRuns
