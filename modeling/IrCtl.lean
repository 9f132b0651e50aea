import IrCtl.Semantics.Transition
import IrCtl.Semantics.Program
import IrCtl.Semantics.Code
import IrCtl.Semantics.CString
import IrCtl.Calendar
import IrCtl.Gree.Frame
import IrCtl.Gree.TimCb
import IrCtl.World
import IrCtl.SoftTimer
import IrCtl.Mqtt.Json
import IrCtl.Mqtt.Recognition
import IrCtl.Mqtt.RequestId
import IrCtl.Mqtt.Handler
import IrCtl.Mqtt.Replies
import IrCtl.Mqtt.TopicMemory
import IrCtl.Serial
import IrCtl.Outline
import IrCtl.Tasks
import IrCtl.Atomic
import IrCtl.Serializable
import IrCtl.Mqtt.Session
import IrCtl.Gree.Device
import IrCtl.Gree.AirTrace
import IrCtl.Gree.FrameReads
import IrCtl.Gree.Receiver
import IrCtl.Gree.Airtime
import IrCtl.Gree.Exclusion
import IrCtl.Refinement
import IrCtl.Firmware
import IrCtl.Deadlock
import IrCtl.Progress
import IrCtl.Gree.AirCon
import IrCtl.Serving
import IrCtl.Ntp
import IrCtl.Clock
import IrCtl.Schedule
import IrCtl.Phases
import IrCtl.Cadence
import IrCtl.Overrides
import IrCtl.StartUp
import IrCtl.Mqtt.Buffers
