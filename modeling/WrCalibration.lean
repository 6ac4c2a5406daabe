import WrCalibration.Common.Cyclic
import WrCalibration.Common.Python
import WrCalibration.Common.Bytes
import WrCalibration.Common.FileObject
import WrCalibration.Common.Clocked
import WrCalibration.Common.Wishbone
import WrCalibration.Common.OnesComplement
import WrCalibration.Common.AsyncFifo
import WrCalibration.Common.FifoCycles
import WrCalibration.Common.Segments
import WrCalibration.Common.RecordRing
import WrCalibration.Common.Loop
import WrCalibration.Common.LeadsTo
import WrCalibration.Common.ShiftRegister
import WrCalibration.Delay.Correlation
import WrCalibration.Delay.Circular
import WrCalibration.Delay.CircularPadding
import WrCalibration.Delay.Linear
import WrCalibration.Delay.LinearWindow
import WrCalibration.Delay.LinearMeasures
import WrCalibration.Delay.LinearPadding
import WrCalibration.Delay.PeakPosition
import WrCalibration.Delay.PeakSearch
import WrCalibration.Delay.Interpolation
import WrCalibration.Delay.PeakUnits
import WrCalibration.Capture.Waveform
import WrCalibration.Capture.LeCroy8254
import WrCalibration.Capture.LeCroyRoundTrip
import WrCalibration.Capture.LeCroyPreamble
import WrCalibration.Capture.CommaSeparated
import WrCalibration.Capture.CommaSeparatedRoundTrip
import WrCalibration.Delay.Pattern
import WrCalibration.Delay.Average
import WrCalibration.Delay.RecordLength
import WrCalibration.Delay.PatternLayout
import WrCalibration.Timing.TimeInternal
import WrCalibration.Timing.TimestampLog
import WrCalibration.Timing.TimeDifference
import WrCalibration.Ipmux.Package
import WrCalibration.Ipmux.Crc32
import WrCalibration.Ipmux.CheckSum
import WrCalibration.Ipmux.TxStreamSel
import WrCalibration.Ipmux.TxPhase
import WrCalibration.Ipmux.TxFifos
import WrCalibration.Ipmux.TxData2Buf
import WrCalibration.Ipmux.TxArbitration
import WrCalibration.Ipmux.TxFrame
import WrCalibration.Ipmux.RxMac2Buf
import WrCalibration.Ipmux.RxFraming
import WrCalibration.Ipmux.RxBuf2Data
import WrCalibration.Ipmux.RxFrame
import WrCalibration.Ipmux.RxResync
import WrCalibration.Ipmux.RxStall
import WrCalibration.Ipmux.RxPass
import WrCalibration.Ipmux.RxUdpSum
import WrCalibration.Ipmux.RxStreams
import WrCalibration.Ipmux.TxImage
import WrCalibration.Ipmux.TxChecksum
import WrCalibration.Ipmux.RoundTrip
import WrCalibration.Ipmux.TxPkt2Mac
import WrCalibration.Ipmux.PauseReq
import WrCalibration.Ipmux.PacketRing
import WrCalibration.Ipmux.RxBuffers
import WrCalibration.Ipmux.RxDelivery
import WrCalibration.Ipmux.TxFilling
import WrCalibration.Ipmux.TxReader
import WrCalibration.Ipmux.TxRing
import WrCalibration.Ipmux.TxSending
import WrCalibration.Ipmux.TxDelivery
import WrCalibration.Ipmux.TxHalf
import WrCalibration.Ipmux.TxRelay
import WrCalibration.Ipmux.TxService
import WrCalibration.Ipmux.CpuSession
import WrCalibration.Ipmux.Registers
import WrCalibration.Ipmux.CpuTransmit
import WrCalibration.Ipmux.CpuReceive
import WrCalibration.Fpga.FirePacketGen
import WrCalibration.Ipmux.RxHalf
import WrCalibration.Ipmux.Link
import WrCalibration.Common.Octets
import WrCalibration.Ptp.Message
import WrCalibration.Ptp.Frame
import WrCalibration.Ptp.Instance
import WrCalibration.Ptp.Master
import WrCalibration.Ptp.Exchange
import WrCalibration.Ptp.Calibration
