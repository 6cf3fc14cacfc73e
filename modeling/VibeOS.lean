import VibeOS.Block.CacheMemory
import VibeOS.Block.CacheSweep
import VibeOS.Block.QueueDriver
import VibeOS.Block.QueueWaiters
import VibeOS.Block.RegistryRuns
import VibeOS.Console.GridRuns
import VibeOS.Fat.Mkfs
import VibeOS.Irq.CallOnce
import VibeOS.Irq.WakeDrain
import VibeOS.Kalloc.ArcRuns
import VibeOS.Kalloc.DeferOnce
import VibeOS.Kernfs.BlockAccess
import VibeOS.Log.Line
import VibeOS.Log.TraceReads
import VibeOS.Mm.BuddyHistory
import VibeOS.Mm.ClipUsable
import VibeOS.Mm.HeapRuns
import VibeOS.Mm.KvaRuns
import VibeOS.Mm.PageWalkExact
import VibeOS.Pci.Enumerated
import VibeOS.Process.ExecStack
import VibeOS.Process.FillExact
import VibeOS.Process.IdMap
import VibeOS.Process.PidOrder
import VibeOS.Sched.Histogram
import VibeOS.Sched.SiteTable
import VibeOS.Sched.Work
import VibeOS.Sync.LockRank
import VibeOS.Sync.OpGate
import VibeOS.Thread.Overdue
import VibeOS.Time.Calendar
import VibeOS.Time.ClockDrift
import VibeOS.Time.ClockReader
import VibeOS.Time.Reload
import VibeOS.Vibefs.Layout
import VibeOS.Virtio.NotifyRuns
