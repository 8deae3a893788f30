import EthPanel.Lib.Run
import EthPanel.Lib.Nor
import EthPanel.Lib.PingPong
import EthPanel.Ota.Crc32
import EthPanel.Ota.PowerFail
import EthPanel.Ota.CrcStandard
import EthPanel.Bootloader.RecoveryDone
import EthPanel.Bootloader.Altered
import EthPanel.System.Trial
import EthPanel.System.Update
import EthPanel.Host.Loss
import EthPanel.Driver.Resync
import EthPanel.Driver.ParseEvent
import EthPanel.Driver.Liveness
import EthPanel.System.Resynced
import EthPanel.System.Truncated
import EthPanel.Bootloader.Chunks
import EthPanel.App.StatusLed
import EthPanel.App.RingsHw
import EthPanel.App.SuperLoop
import EthPanel.App.Debounce
import EthPanel.App.Commands
import EthPanel.App.Display
import EthPanel.App.Validation
import EthPanel.App.Main
import EthPanel.App.LoopPair
import EthPanel.App.NetQueue
import EthPanel.System.Mirror
import EthPanel.Host.Tokens
import EthPanel.Host.EnsureRecovery
import EthPanel.System.Simulated
import EthPanel.System.Published
import EthPanel.System.Shown
import EthPanel.Driver.Reconnect
import EthPanel.System.DesiredState
import EthPanel.System.StandsIn
import EthPanel.Host.Retries
import EthPanel.System.Console
