import Rooter.BandMaskSet
import Rooter.FibocomBands
import Rooter.GcomLock
import Rooter.Reassembly
import Rooter.RouterBoot
import Rooter.SmsRobustness
import Rooter.SmsAlphabet
import Rooter.SmsUtf8
import Rooter.SmsHeader
import Rooter.SmsAddress
import Rooter.SmsSend
import Rooter.SmsStamp
import Rooter.BandwidthUsage
import Rooter.BandwidthRollover
import Rooter.MtdInput
import Rooter.MtdConfig
import Rooter.MtdVerify
import Rooter.BadBlockOrder
import Rooter.BadBlockReload
import Rooter.BadBlockBitmapRemap
import Rooter.BadBlockCopy
import Rooter.NvramReopen
import Rooter.NvramRoundTrip
import Rooter.NvramVariables
import Rooter.ShellConfigExact
import Rooter.AccountsSafety
import Rooter.MapcalcPorts
import Rooter.SoftConfig
import Rooter.Bcm4908Create
import Rooter.MtdSplit
import Rooter.PackageDependsExact
import Rooter.BandPreference
import Rooter.PingTest
import Rooter.DataIncrement
import Rooter.ProfileSelect
import Rooter.TtlRules
import Rooter.BandwidthRefresh
import Rooter.Jffs2File
import Rooter.Jffs2Walk
import Rooter.BootCount
import Rooter.TrxFix
import Rooter.KconfigMerge
import Rooter.MapcalcMatch
import Rooter.SixRd
import Rooter.Bcm4908Walk
import Rooter.Ipcalc
import Rooter.Oseama
import Rooter.PackageMenu
