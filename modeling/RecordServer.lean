import RecordServer.App.Properties.StopFinal
import RecordServer.App.Properties.CrashRestart
import RecordServer.App.Properties.RequestOrder
import RecordServer.App.Command
import RecordServer.Datas.Properties.Contents
import RecordServer.Datas.Properties.Ownership
import RecordServer.Conf.Properties.RoundTrip
import RecordServer.Base.Properties.ConnectClose
import RecordServer.Datas.Properties.QueueSingle
import RecordServer.Datas.Properties.QueueMulti
import RecordServer.Datas.Properties.QueueFifo
import RecordServer.Timer.Properties.Membership
import RecordServer.Timer.Properties.PassExact
import RecordServer.MemPool.Properties.SlabPartition
import RecordServer.MemPool.Properties.BuddyTiling
import RecordServer.Log.Properties.TimePeriod
import RecordServer.Log.Properties.SizeLimit
import RecordServer.Base.Properties.AddCircle
import RecordServer.Base.Properties.ListenPolling
import RecordServer.Process.Properties.Notifications
import RecordServer.App.Properties.Adoption
import RecordServer.App.Properties.ManagerOnly
import RecordServer.App.Properties.ForkSimulation
import RecordServer.Ftp.Properties.Transfers
import RecordServer.Ftp.Properties.Segmentation
import RecordServer.Datas.Properties.QueueResize
import RecordServer.Base.Properties.TraversalOnce
import RecordServer.MemPool.Properties.BuddyEnough
import RecordServer.MemPool.Properties.SlabPoolEnough
import RecordServer.MemPool.Properties.SlabInside
import RecordServer.App.Properties.PlaylistNames
import RecordServer.App.Properties.PlaylistRoot
import RecordServer.App.Properties.CreateReply
import RecordServer.Conf.Properties.Truncation
import RecordServer.Lock.Properties.WholeReads
import RecordServer.Datas.Properties.TraversalOrder
import RecordServer.Datas.Properties.DestroyOnce
import RecordServer.Datas.Properties.ListSequence
import RecordServer.MemPool.Properties.MemboxOwners
import RecordServer.Log.Properties.Rotation
import RecordServer.Conf.Properties.ReadBuffer
import RecordServer.Conf.Properties.FileOnly
import RecordServer.Conf.Properties.LineNumbers
import RecordServer.Conf.Properties.NodesOnce
import RecordServer.Conf.Properties.TableIndex
import RecordServer.Strings.Properties.Decimal
import RecordServer.Thread.Properties.Placement
import RecordServer.Main.Properties.CurPath
import RecordServer.Ftp.Properties.PortPasv
import RecordServer.Ftp.Properties.ListBuffer
import RecordServer.App.Properties.RootDown
import RecordServer.MemPool.Properties.BuddyInside
import RecordServer.Ftp.Properties.FixedBuffers
import RecordServer.Ftp.Properties.ReplyStep
import RecordServer.Conf.Properties.Progress
import RecordServer.MemPool.Properties.BuddyExhaustion
import RecordServer.MemPool.Properties.SlabZones
import RecordServer.Base.Properties.ConnLifetime
import RecordServer.Base.Properties.IdleTimeout
import RecordServer.Datas.Properties.QueueSpsc
import RecordServer.Datas.Properties.QueuePublish
import RecordServer.Log.Properties.ThreadedAlone
import RecordServer.App.Properties.PlaylistExhaustion
import RecordServer.App.Properties.PlaylistCreation
import RecordServer.Datas.Properties.Logarithmic
