import Anoubis.Apn.AssignParse
import Anoubis.Apn.CopyInsert
import Anoubis.Apn.FailedEdits
import Anoubis.Apn.Independent
import Anoubis.Apn.PathBuffer
import Anoubis.Apn.RbRuns
import Anoubis.Apn.SingleSfs
import Anoubis.Chat.Transmission
import Anoubis.Client.CsmultiMsg
import Anoubis.Client.Notify
import Anoubis.Client.OpsRuns
import Anoubis.Daemon.AuthSound
import Anoubis.Daemon.CfgBuffer
import Anoubis.Daemon.ClientRuns
import Anoubis.Daemon.CsmultiProcess
import Anoubis.Daemon.CsmultiReading
import Anoubis.Daemon.Flags
import Anoubis.Daemon.KernelCompatEvents
import Anoubis.Daemon.PipeRuns
import Anoubis.Daemon.RootKeyRuns
import Anoubis.Daemon.SfsEscape
import Anoubis.Pe.AddScope
import Anoubis.Pe.Admin
import Anoubis.Pe.BorrowRuns
import Anoubis.Pe.Compare
import Anoubis.Pe.Escalate
import Anoubis.Pe.ExecPredict
import Anoubis.Pe.ListReply
import Anoubis.Pe.PlaygroundCommit
import Anoubis.Pe.PlaygroundDirRename
import Anoubis.Pe.PlaygroundIds
import Anoubis.Pe.PlaygroundProcs
import Anoubis.Pe.RefsRuns
import Anoubis.Pe.SandboxReport
import Anoubis.Pe.SfsCacheRuns
import Anoubis.Pe.Splice
import Anoubis.Pe.UpgradeDelivery
import Anoubis.Pe.UploadCommit
import Anoubis.Proto.Confidential
import Anoubis.Proto.Crc32
import Anoubis.Proto.Framing
import Anoubis.Proto.Gate
import Anoubis.Proto.NotifyRegs
import Anoubis.Proto.VerifyAll
import Anoubis.Sfssig.Tree
import Anoubis.Sig.PolicyFile
import Anoubis.Ui.PgfileCommit
