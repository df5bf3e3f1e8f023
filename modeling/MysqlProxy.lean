import MysqlProxy.Ht.LinkTableReuse
import MysqlProxy.Ht.LinkTableCount
import MysqlProxy.Ht.LinkTableRead
import MysqlProxy.Ht.MhtFrame
import MysqlProxy.Ht.MhtIter
import MysqlProxy.Storage.ReadCache
import MysqlProxy.Storage.ShmLock
import MysqlProxy.Knv.RootEdit
import MysqlProxy.Proxy.Client
import MysqlProxy.Knv.ObjPool
import MysqlProxy.Knv.Oidb
import MysqlProxy.Proxy.ProcessRequest
import MysqlProxy.Knv.Partial
import MysqlProxy.Knv.Reread
import MysqlProxy.Knv.SelfRequest
import MysqlProxy.Knv.DeleteSubTree
import MysqlProxy.Proxy.CryptBlocks
import MysqlProxy.Knv.PbEval
import MysqlProxy.Knv.PbCursor
import MysqlProxy.Knv.KeyCheck
import MysqlProxy.Knv.Looking
import MysqlProxy.Knv.Encoded
import MysqlProxy.Knv.NodeEdit
import MysqlProxy.Knv.Duplicate
import MysqlProxy.Knv.BuildIndex
import MysqlProxy.Knv.Detach
import MysqlProxy.Knv.SerializeBuf
import MysqlProxy.Knv.SerializeRoom
import MysqlProxy.Knv.PbLanguage
import MysqlProxy.Proxy.ParseSafe
import MysqlProxy.Proxy.RowSets
import MysqlProxy.Proxy.TrafficSpeed
import MysqlProxy.Proxy.KeyFile
import MysqlProxy.Proxy.Handles
import MysqlProxy.Knv.MemPool
import MysqlProxy.Knv.MetaFrame
import MysqlProxy.Knv.PbSkip
import MysqlProxy.Knv.OidbCheck
import MysqlProxy.Knv.PoolAccount
import MysqlProxy.Lib.CString
import MysqlProxy.Proxy.Hex
import MysqlProxy.Proxy.OiCfg
import MysqlProxy.Ht.RowGeometry
import MysqlProxy.Knv.ReleaseTree
import MysqlProxy.Knv.PoolLists
import MysqlProxy.Knv.Compare
import MysqlProxy.Knv.Kept
import MysqlProxy.Knv.Split
import MysqlProxy.Knv.SplitSend
import MysqlProxy.Knv.SplitParts
import MysqlProxy.Knv.SplitCut
import MysqlProxy.Knv.SplitCount
import MysqlProxy.Knv.SplitSize
import MysqlProxy.Knv.HtChains
import MysqlProxy.Knv.Looks
import MysqlProxy.Proxy.ResultHandle
import MysqlProxy.Proxy.Session
import MysqlProxy.Proxy.SessionRun
import MysqlProxy.Proxy.SharedTable
import MysqlProxy.Knv.SplitTransfer
import MysqlProxy.Storage.Restart
import MysqlProxy.Proxy.ConnectionPool
