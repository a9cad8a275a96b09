import FileServices.Proofs.Exchange
import FileServices.Proofs.Gfserver
import FileServices.Proofs.Segmentation
import FileServices.Proofs.Downloader
import FileServices.Proofs.CacheIsolation
import FileServices.Proofs.Cache
import FileServices.Proofs.DfsService
import FileServices.Proofs.DfsAtomic
import FileServices.Proofs.CacheSegments
import FileServices.Proofs.CacheStrands
import FileServices.Proofs.Dispatch
import FileServices.Proofs.Handlers
import FileServices.Proofs.StequeHeap
import FileServices.Proofs.ReturnCode
import FileServices.Proofs.DfsPaths
import FileServices.Proofs.Transfer
import FileServices.Proofs.Serving
import FileServices.Proofs.DfsCounters
import FileServices.Proofs.DfsFetch
import FileServices.Proofs.DfsStored
import FileServices.Proofs.GfsSend
import FileServices.Proofs.Request
import FileServices.Proofs.Tokens
import FileServices.Proofs.Receiver
import FileServices.Proofs.Lengths
import FileServices.Proofs.Leaving
import FileServices.Proofs.OkHeader
import FileServices.Proofs.StatusWord
import FileServices.Proofs.Worker
import FileServices.Proofs.ContentFile
import FileServices.Proofs.Curl
import FileServices.Proofs.CacheValue
import FileServices.Proofs.ReqStruct
import FileServices.Proofs.SharedMemory
import FileServices.Proofs.SendResponse
import FileServices.Proofs.SharedOffset
import FileServices.Proofs.BuiltPath
import FileServices.Proofs.LocalPath
import FileServices.Proofs.Workload
import FileServices.Proofs.DfsListing
import FileServices.Proofs.Inotify
import FileServices.Proofs.OpenFile
import FileServices.Proofs.WriteCallback
import FileServices.Proofs.ServeLoop
import FileServices.Proofs.Descriptors
import FileServices.Proofs.Mount
import FileServices.Proofs.Answering
import FileServices.Proofs.WorkQueue
import FileServices.Proofs.Download
import FileServices.Proofs.DownloadServed
import FileServices.Proofs.Exhaustion
import FileServices.Proofs.Saving
import FileServices.Proofs.Shutdown
import FileServices.Proofs.CacheTable
import FileServices.Proofs.Echo
import FileServices.Proofs.Transfers
