import Morgan.Lib.Outcome
import Morgan.Lib.ForkTree
import Morgan.Lib.AssocMap
import Morgan.Lib.Bincode
import Morgan.Lib.Machine
import Morgan.Lib.EraseDups
import Morgan.Lib.SortedMap
import Morgan.Lib.Guarantee
import Morgan.Lib.Bits
import Morgan.Lib.Binary64
import Morgan.Interface.Basic
import Morgan.Interface.ShortVec
import Morgan.Interface.Transaction
import Morgan.Interface.Message
import Morgan.Interface.Account
import Morgan.Controllers.VoteState
import Morgan.Controllers.VoteStateProof
import Morgan.Runtime.EpochSchedule
import Morgan.Runtime.EpochStakes
import Morgan.Core.LeaderSchedule
import Morgan.Core.LeaderScheduleCache
import Morgan.Runtime.SystemProgram
import Morgan.Controllers.Stake
import Morgan.Controllers.Token
import Morgan.Controllers.TokenProof
import Morgan.Controllers.TokenSupply
import Morgan.Runtime.AccountsDb
import Morgan.Runtime.AppendVec
import Morgan.Runtime.AccountStorage
import Morgan.Runtime.MessageProcessor
import Morgan.Runtime.Accounts
import Morgan.Runtime.StatusCache
import Morgan.Runtime.Bank
import Morgan.Runtime.Stakes
import Morgan.Controllers.StakeProof
import Morgan.Runtime.BankTree
import Morgan.Controllers.EntryPoints
import Morgan.Controllers.Exchange
import Morgan.Controllers.ExchangeProof
import Morgan.Controllers.BpfLoader
import Morgan.Controllers.BpfVerifier
import Morgan.Controllers.BpfVerifierProof
import Morgan.Controllers.Budget
import Morgan.Controllers.BudgetProof
import Morgan.Controllers.Storage
import Morgan.Controllers.StorageProof
import Morgan.Runtime.BankProof
import Morgan.Runtime.MessageProcessorProof
import Morgan.Runtime.BankTreeProof
import Morgan.Runtime.AccountsIndexProof
import Morgan.Runtime.AccountStorageProof
import Morgan.Core.BankForks
import Morgan.Core.BankForksProof
import Morgan.Core.Locktower
import Morgan.Core.LocktowerProof
import Morgan.Core.Blocktree
import Morgan.Core.BlocktreeInsert
import Morgan.Core.MissingIndexes
import Morgan.Core.Repair
import Morgan.Runtime.Bloom
import Morgan.Core.Crds
import Morgan.Core.ClusterInfo
import Morgan.Lib.Greatest
import Morgan.Core.CrdsMerge
import Morgan.Core.SigVerify
import Morgan.Core.SigVerifyProof
import Morgan.Kvstore.Table
import Morgan.Kvstore.Store
import Morgan.Kvstore.Consistency
import Morgan.Kvstore.Accounting
import Morgan.Kvstore.Levels
import Morgan.Kvstore.Merge
import Morgan.Kvstore.IoUtils
import Morgan.Kvstore.WriteLog
import Morgan.Lib.Iter
import Morgan.Kvstore.TableFile
import Morgan.Core.WaterClock
import Morgan.Core.WaterClockProof
import Morgan.Core.Entry
import Morgan.Core.EntryProof
import Morgan.Core.WaterClockRecorder
import Morgan.Core.WaterClockRecorderProof
import Morgan.Core.LocktowerStake
import Morgan.Core.LocktowerStakeProof
import Morgan.Core.ReplayStage
import Morgan.Core.ReplayStageProof
