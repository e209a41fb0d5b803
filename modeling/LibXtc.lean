import LibXtc.Task.WakeSafety
import LibXtc.LockMgr.Entries
import LibXtc.LockMgr.Exclusion
import LibXtc.LockMgr.ReleaseAll
import LibXtc.Proc.Monitors
import LibXtc.Proc.Links
import LibXtc.Proc.Masking
import LibXtc.Proc.PidIdentity
import LibXtc.Proc.Release
import LibXtc.Proc.Unlink
import LibXtc.Sync.AMutexSafety
import LibXtc.Sync.ARwLockSafety
import LibXtc.Sync.SemaphoreUnits
import LibXtc.Chan.MpscClose
import LibXtc.Chan.Oneshot
import LibXtc.Evt.DequeOnce
import LibXtc.Evt.InboxWakeup
import LibXtc.Evt.Timeouts
import LibXtc.Sup.GroupRestart
import LibXtc.Sup.Permanence
import LibXtc.Sup.RestartPolicy
import LibXtc.Batch.Completion
import LibXtc.Chan.Conservation
import LibXtc.Io.Frame
import LibXtc.Evt.LaneFairness
import LibXtc.Evt.LaneStarvation
import LibXtc.Evt.Exec
import LibXtc.Sync.LrLock
import LibXtc.Mailbox.Bound
import LibXtc.Proc.HybridClock
import LibXtc.Proc.DownCodec
import LibXtc.Proc.ChildProcess
import LibXtc.Ptc.ArenaGroup
import LibXtc.Ptc.CfgFile
import LibXtc.Ptc.Sketches
import LibXtc.Orc.Scratch
import LibXtc.Orc.Server
import LibXtc.Orc.ShardTick
import LibXtc.Sup.Intensity
