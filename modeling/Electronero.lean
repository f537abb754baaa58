import Electronero.Token.Refusals
import Electronero.Token.Ledger
import Electronero.Token.Integrated
import Electronero.Core.HardForkObject
import Electronero.Core.ChainSync
import Electronero.Core.EnforcedCheckpoints
import Electronero.Core.Timestamps
import Electronero.Core.CheckHash
import Electronero.Core.SwitchEnd
import Electronero.Core.DifficultyCache
import Electronero.Core.SupplySchedule
import Electronero.Core.SizeLimit
import Electronero.Address
import Electronero.Core.TxExtra
import Electronero.Core.Amounts
import Electronero.Core.AmountDigits
import Electronero.Core.PoolOrder
import Electronero.Core.PoolTemplate
import Electronero.Core.TxInputs
import Electronero.Core.RejectedBlock
import Electronero.Protocol.PartialRescan
import Electronero.Protocol.LiveReplay
import Electronero.Protocol.SharedFile
import Electronero.Protocol.Locks
import Electronero.Protocol.PrepareCleanup
import Electronero.Protocol.ChainEntry
import Electronero.Protocol.FluffyBlock
import Electronero.Wallet.Agreement
import Electronero.Wallet.Totals
import Electronero.Wallet.Detach
import Electronero.Mnemonics.Seeds
import Electronero.Permutation
import Electronero.Wallet.Selection
import Electronero.Wallet.PaymentUri
import Electronero.Wallet.ChainExport
