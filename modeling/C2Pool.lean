import C2Pool.Dash.PayeeRotation
import C2Pool.Dash.PoseBounds
import C2Pool.Dash.ReviveRepair
import C2Pool.Ltc.CompactGrid
import C2Pool.Ltc.HashLink
import C2Pool.Ltc.HeadOrder
import C2Pool.Ltc.MergedOrder
import C2Pool.Ltc.PplnsRingGap
import C2Pool.Ltc.RatchetMint
import C2Pool.Ltc.ShareConservation
import C2Pool.Ltc.ShareRetarget
import C2Pool.Ltc.SupersedeTails
import C2Pool.Sharechain.PreparedOrder
import C2Pool.Sharechain.StatsRun
import C2Pool.Sharechain.WeightsRun
import C2Pool.Utxo.ReplayCrash
import C2Pool.Utxo.ViewUndo
import C2Pool.V37.BtcRestart
import C2Pool.V37.CarryGate
import C2Pool.V37.CoinbaseAssembly
import C2Pool.V37.CommittedRecovery
import C2Pool.V37.CreditOnce
import C2Pool.V37.DustDecay
import C2Pool.V37.FinalizeHeights
import C2Pool.V37.FinalizeOrder
import C2Pool.V37.FrameVault
import C2Pool.V37.OwedProofs
import C2Pool.V37.RecordLogs
import C2Pool.V37.RecoveryTwice
import C2Pool.V37.RidgeReference
import C2Pool.V37.RoundaboutCut
import C2Pool.V37.RoundaboutPlacement
import C2Pool.V37.WidthLaw
import C2Pool.Xmr.LongMirror
import C2Pool.Xmr.MedianRun
import C2Pool.Xmr.OutputSetRun
import C2Pool.Xmr.RatchetRows
import C2Pool.Xmr.WindowSealed
import C2Pool.Xmr.WindowSplit
