import Udev.Ownership
import Udev.Serialization
import Udev.RoundTrip
import Udev.RuleRun
import Udev.ParentMatch
import Udev.Negation
import Udev.Finality
import Udev.SocketFilter
import Udev.LinkRace
import Udev.PrivateKeys
import Udev.HwdbImport
import Udev.HwdbLookup
import Udev.MessageRoundTrip
import Udev.ListEntries
import Udev.StringStore
import Udev.CardOrder
import Udev.DeviceIds
import Udev.CollectRuns
import Udev.ConfFiles
import Udev.TagIndex
import Udev.Watches
import Udev.ScanAgreement
import Udev.CheckAgreement
import Udev.TokenRoom
import Udev.MatchValues
import Udev.AttrBuffer
import Udev.FormatBuffer
import Udev.ResultParts
import Udev.AddedTags
import Udev.LogicalLines
import Udev.KernelNumber
import Udev.ImportString
import Udev.CommandLine
import Udev.ChildStatus
import Udev.ChildOutput
import Udev.ReceiveBuffer
import Udev.SpawnArgv
import Udev.DerivedProperties
import Udev.FilterRoom
import Udev.PciNames
import Udev.LinkBuffers
import Udev.PathTag
import Udev.RelativePath
import Udev.UsbInterfaces
import Udev.UsbNames
import Udev.DeviceNodes
import Udev.Utf8
import Udev.ReplaceWhitespace
import Udev.NumericOwner
import Udev.DirTimestamps
import Udev.CmdlineOptions
import Udev.HwdbLineBuffer
import Udev.SearchLoop
import Udev.StableSort
import Udev.ScsiSerial
import Udev.ScsiPrefix
import Udev.ScsiSearch
import Udev.ScsiWalk
import Udev.ScsiStable
import Udev.ScsiFields
import Udev.TokenArray
import Udev.Utf8Reads
import Udev.ValueDecode
import Udev.CharEscape
import Udev.CdProfiles
import Udev.SmartMedia
import Udev.CapMask
import Udev.ScsiConfig
import Udev.RuleChecker
import Udev.LinkedChains
import Udev.OrderedMap
import Udev.HashEntries
import Udev.HashSteps
import Udev.HashResize
import Udev.HashMaps
import Udev.HashRuns
import Udev.SizedString
import Udev.WorkerLists
import Udev.MainLoop
import Udev.Settle
import Udev.Shutdown
import Udev.Drain
import Udev.RuleMeaning
import Udev.StaticMeaning
import Udev.Broadcast
import Udev.CtrlWire
import Udev.Inherit
import Udev.Ranked
import Udev.HwdbPriority
import Udev.HwdbProperties
