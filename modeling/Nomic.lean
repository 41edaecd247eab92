import Nomic.Basic
import Nomic.Bitcoin.WatchedScripts
import Nomic.Bitcoin.WatchedScriptsSpec
import Nomic.Bitcoin.StoreFormat
import Nomic.Bitcoin.ScriptStore
import Nomic.Bitcoin.StoreReplay
import Nomic.Bitcoin.StoreLoad
import Nomic.Ethereum.Ed
import Nomic.Ethereum.Consensus
import Nomic.Ethereum.LightClient
import Nomic.Bitcoin.BlockTree
import Nomic.Bitcoin.CommonAncestor
import Nomic.Bitcoin.DepositScan
import Nomic.Bitcoin.DepositRelay
import Nomic.Bitcoin.HeaderRelay
import Nomic.Bitcoin.HeaderSync
import Nomic.Bitcoin.CheckpointRelay
import Nomic.Ethereum.Canonical
import Nomic.Ethereum.HexText
import Nomic.Bitcoin.DepositCoverage
import Nomic.Bitcoin.DepositCalls
import Nomic.Bitcoin.DepositSafety
