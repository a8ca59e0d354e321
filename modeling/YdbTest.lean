import YdbTest.ActionNumber
import YdbTest.Applic
import YdbTest.AuditEscape
import YdbTest.BarrageRuns
import YdbTest.BoolTest
import YdbTest.BooleanExpr
import YdbTest.CanonicalizePath
import YdbTest.CheckDbAgree
import YdbTest.CleanRun
import YdbTest.CollationNumeric
import YdbTest.CollationOrder
import YdbTest.CollationRoundTrip
import YdbTest.Convdbkeys
import YdbTest.CorruptJnlrec
import YdbTest.Datinfo
import YdbTest.DbcargsLegal
import YdbTest.DbcargsSame
import YdbTest.Draw
import YdbTest.EnvXlateNames
import YdbTest.ExpandEnvvars
import YdbTest.ExtFilter
import YdbTest.Extractkey
import YdbTest.GenmsgsTypes
import YdbTest.GensprgdeMaps
import YdbTest.GetmsginfoRight
import YdbTest.Getresyncseqno
import YdbTest.Gsub
import YdbTest.GtcmHosts
import YdbTest.JobBarrier
import YdbTest.LinkRuns
import YdbTest.LinkSort
import YdbTest.MmrhashProgressive
import YdbTest.MsrRun
import YdbTest.OrderLoop
import YdbTest.OutrefAlign
import YdbTest.OutrefSuspend
import YdbTest.Outstream
import YdbTest.OutstreamLines
import YdbTest.OutstreamRuns
import YdbTest.PauseImptp
import YdbTest.PopulateTree
import YdbTest.PortnoMutex
import YdbTest.PortnoSearch
import YdbTest.PrintBlock
import YdbTest.PseudoBankAudit
import YdbTest.RandomTriggers
import YdbTest.RctlArguments
import YdbTest.RctlRuns
import YdbTest.RctlValidate
import YdbTest.RegexpFront
import YdbTest.Resume
import YdbTest.Rinttp
import YdbTest.Shuffle
import YdbTest.StressAnswer
import YdbTest.TestPick
import YdbTest.ThreeEn1Port
import YdbTest.Threeenp1Answer
import YdbTest.TrigSplit
import YdbTest.TriggerCompare
import YdbTest.TriggerEvents
import YdbTest.TriggerFile
import YdbTest.TriggerLeaves
import YdbTest.TriggerReload
import YdbTest.TriggerSelect
import YdbTest.UmJrnlParts
import YdbTest.UmJrnlReplay
import YdbTest.UniteProjects
import YdbTest.Wordfreq
