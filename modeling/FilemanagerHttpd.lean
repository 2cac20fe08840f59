import FilemanagerHttpd.Server.MainLoop
import FilemanagerHttpd.Audit.FixedLength
import FilemanagerHttpd.Audit.ChunkedBody
import FilemanagerHttpd.Audit.HeaderLines
import FilemanagerHttpd.Audit.UrlConfinement
import FilemanagerHttpd.Audit.Duties
import FilemanagerHttpd.Audit.ConnectionTable
import FilemanagerHttpd.Audit.ChunkSizes
import FilemanagerHttpd.Audit.RequestText
import FilemanagerHttpd.Audit.DigestLogin
import FilemanagerHttpd.Audit.FormFaults
import FilemanagerHttpd.Audit.RequestPaths
import FilemanagerHttpd.Audit.FormParts
import FilemanagerHttpd.Audit.HeadAnswers
import FilemanagerHttpd.Audit.CgiBody
import FilemanagerHttpd.Audit.ShareTable
import FilemanagerHttpd.Audit.ShareListing
import FilemanagerHttpd.Audit.CredentialTable
import FilemanagerHttpd.Audit.FolderCounts
import FilemanagerHttpd.Audit.ChunkSlices
import FilemanagerHttpd.Audit.ConfigFold
import FilemanagerHttpd.Audit.ResponseText
import FilemanagerHttpd.Audit.Links
import FilemanagerHttpd.Audit.HeaderBlocks
import FilemanagerHttpd.Audit.HeaderCuts
import FilemanagerHttpd.Audit.HeaderAgreement
import FilemanagerHttpd.Audit.Framing
import FilemanagerHttpd.Audit.TransferCodings
import FilemanagerHttpd.Audit.StartLines
import FilemanagerHttpd.Audit.Formats
import FilemanagerHttpd.Audit.BufferGrowth
import FilemanagerHttpd.Audit.CgiSearch
import FilemanagerHttpd.Audit.CgiPatterns
import FilemanagerHttpd.Audit.SizeDigits
import FilemanagerHttpd.Audit.IndexFiles
import FilemanagerHttpd.Audit.Md5Sums
import FilemanagerHttpd.Audit.TreeRemoval
import FilemanagerHttpd.Audit.Uploads
import FilemanagerHttpd.Audit.SocketSupply
import FilemanagerHttpd.Audit.RequestReading
import FilemanagerHttpd.Audit.ReadingTurns
import FilemanagerHttpd.Audit.HandlerReading
import FilemanagerHttpd.Audit.CgiStart
import FilemanagerHttpd.Audit.CgiOutput
import FilemanagerHttpd.Audit.LoginState
import FilemanagerHttpd.Audit.Waits
import FilemanagerHttpd.Audit.ConnectionWaits
import FilemanagerHttpd.Audit.ConnectionWork
import FilemanagerHttpd.Audit.ServerWork
import FilemanagerHttpd.Audit.LoopWaits
import FilemanagerHttpd.Library.Traces
import FilemanagerHttpd.Audit.RequestReader
import FilemanagerHttpd.Audit.SentRequests
import FilemanagerHttpd.Audit.ReaderSteps
import FilemanagerHttpd.Audit.ReaderRefinement
import FilemanagerHttpd.Audit.Pipelines
