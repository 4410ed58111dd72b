import RetroRocket.LevelCaches
import RetroRocket.Realloc
import RetroRocket.TcpRoundTrip
import RetroRocket.TcpTransparency
import RetroRocket.TcpDelivery
import RetroRocket.TcpAccept
import RetroRocket.DhcpLease
import RetroRocket.ProcessConsistency
import RetroRocket.IpBounds
import RetroRocket.IpReassembly
import RetroRocket.MixerLaw
import RetroRocket.CleanNormal
import RetroRocket.AutoNumberLaw
import RetroRocket.BasicScopes
import RetroRocket.KeywordSearch
import RetroRocket.ConditionEvaluator
import RetroRocket.Restrictions
import RetroRocket.GptInstall
import RetroRocket.FileHandleLaw
import RetroRocket.TokenProgress
import RetroRocket.BlockIfPrograms
import RetroRocket.FrameBalance
import RetroRocket.ForLoops
import RetroRocket.StringDangling
import RetroRocket.ParamsSplit
import RetroRocket.WhileStack
import RetroRocket.IntegerRoundTrip
import RetroRocket.MountPoints
import RetroRocket.DescriptorTable
import RetroRocket.IndexOrder
import RetroRocket.BinaryStrings
import RetroRocket.BlockCacheBound
import RetroRocket.MapIterator
import RetroRocket.MapAllocation
import RetroRocket.BasicMapLaw
import RetroRocket.ArrayFindLaw
import RetroRocket.InternetChecksum
import RetroRocket.ArpQueueLaw
import RetroRocket.FatLongNames
import RetroRocket.FatUnlink
import RetroRocket.RfsNames
import RetroRocket.Ramdisk
import RetroRocket.IsoFile
import RetroRocket.UdfFill
import RetroRocket.IsoDirectoryLaw
import RetroRocket.UdfDirectoryLaw
import RetroRocket.Ext2Read
import RetroRocket.Ext2DirectoryLaw
import RetroRocket.PartitionSafety
import RetroRocket.BuddyGrowth
import RetroRocket.BuddyCoalesce
import RetroRocket.ArpLookup
import RetroRocket.IdlePass
import RetroRocket.DhcpOptions
import RetroRocket.WavConvert
import RetroRocket.UdpFifo
import RetroRocket.ModuleRelocation
import RetroRocket.TcpChannel
import RetroRocket.ExtentLedger
import RetroRocket.ModOutput
import RetroRocket.DnsRoundTrip
import RetroRocket.PeekPoke
import RetroRocket.BootRun
