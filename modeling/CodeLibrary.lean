import CodeLibrary.AcBm.Proof.Reports
import CodeLibrary.AcBm.Proof.Safe
import CodeLibrary.AcBm.Proof.Clean
import CodeLibrary.Dechunk.Proof.Reads
import CodeLibrary.Dechunk.Proof.Cuts
import CodeLibrary.MultiKey.Proof.Reads
import CodeLibrary.MultiKey.Proof.Arrays
import CodeLibrary.TopHeap.Proof.Stream
import CodeLibrary.TopHeap.Proof.Wrap
import CodeLibrary.Proxy.Proof.Relay
import CodeLibrary.Proxy.Proof.Addr
import CodeLibrary.Utils.Proof.Transfer
import CodeLibrary.Utils.Proof.Eof
import CodeLibrary.Hotp.Proof.Generate
import CodeLibrary.Hotp.Proof.Roundtrip
import CodeLibrary.Kmp.Proof.Search
import CodeLibrary.Hash.Proof.Iterate
import CodeLibrary.Inotify.Proof.Account
import CodeLibrary.Inotify.Proof.Queue
import CodeLibrary.VpLog.Proof.Size
import CodeLibrary.Lib.Occurs
import CodeLibrary.BmTrie.Proof.Repeats
import CodeLibrary.RbTree.Proof.Insert
import CodeLibrary.RbTree.Proof.Calls
import CodeLibrary.Lib.BlockHash
import CodeLibrary.Hotp.Sha1
import CodeLibrary.Hotp.Fips
import CodeLibrary.Hotp.Proof.Transform
import CodeLibrary.Hotp.Proof.Sha1
import CodeLibrary.Hotp.Proof.Hmac
import CodeLibrary.Libpam.Proof.Code
import CodeLibrary.Lib.BitGroups
import CodeLibrary.Libpam.Base32
import CodeLibrary.Libpam.Proof.Base32
import CodeLibrary.Libpam.StateFile
import CodeLibrary.Libpam.Proof.StateFile
import CodeLibrary.Libpam.Checks
import CodeLibrary.Libpam.Login
import CodeLibrary.Libpam.Proof.Numbers
import CodeLibrary.Libpam.Proof.Account
import CodeLibrary.Libpam.Proof.Login
import CodeLibrary.Libpam.Session
import CodeLibrary.Lib.Serial
import CodeLibrary.Libpam.Proof.Session
import CodeLibrary.Libpam.Proof.Uses
import CodeLibrary.Libpam.Proof.Blocked
import CodeLibrary.Libpam.Proof.Reuse
