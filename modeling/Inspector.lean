import Inspector.Numerals
import Inspector.Planner.Steps
import Inspector.Planner.Incremental
import Inspector.Transition.Run
import Inspector.Planner.Override
import Inspector.Planner.Feasible
import Inspector.Stepper.Ramp
import Inspector.Stepper.Prep
import Inspector.Stepper.Profile
import Inspector.Stepper.Conservation
import Inspector.Bresenham.Counter
import Inspector.Stepper.Interrupt
import Inspector.Stepper.Pulses
import Inspector.Stepper.Arrivals
import Inspector.Stepper.Exactness
import Inspector.Geometry.Polar
import Inspector.Kinematics.Arm
import Inspector.Kinematics.Inverse
import Inspector.Kinematics.CartesianLine
import Inspector.MotionControl.JointLimits
import Inspector.Protocol.Assembly
import Inspector.Cyclic.Successor
import Inspector.Planner.Ring
import Inspector.Planner.Fifo
import Inspector.Keyed.List
import Inspector.Ngc.Params
import Inspector.Ngc.Scopes
import Inspector.Memory.Range
import Inspector.Nvs.Layout
import Inspector.Nvs.Buffer
import Inspector.Nvs.WriteBack
import Inspector.Machine.Handlers
import Inspector.Machine.Calm
import Inspector.Machine.Run
import Inspector.Machine.Interlock
import Inspector.Machine.DoorEntry
import Inspector.Linked.Chain
import Inspector.Tasks.Pool
import Inspector.Tasks.Scheduler
import Inspector.Tasks.Layout
import Inspector.Tasks.Links
import Inspector.Tasks.Kept
import Inspector.Tasks.Valid
import Inspector.Tasks.Execute
import Inspector.Tasks.Startup
import Inspector.Tasks.Integrity
import Inspector.Ordered.Insertion
import Inspector.Tasks.Order
import Inspector.Json.Parse
import Inspector.StreamJson.Writer
import Inspector.StreamJson.Text
import Inspector.StreamJson.RoundTrip
import Inspector.Linked.Double
import Inspector.Streams.Connections
import Inspector.Streams.Select
import Inspector.Cyclic.Queue
import Inspector.Modbus.Async
import Inspector.Modbus.Checksum
import Inspector.Streams.Delivery
import Inspector.Telnet.Session
import Inspector.Telnet.Transparent
import Inspector.Vfs.Mounts
import Inspector.Vfs.Table
import Inspector.Ymodem.Buffers
import Inspector.Ymodem.Delivery
import Inspector.Ioports.Claims
import Inspector.Kinematics.Replica
import Inspector.Kinematics.Resync
import Inspector.Kinematics.PoseSolver
import Inspector.Kinematics.Delta
import Inspector.Kinematics.DeltaLimits
import Inspector.MotionControl.NamedJoints
import Inspector.MotionControl.ToolSpeed
import Inspector.Gcode.MotionBlock
import Inspector.Stepper.Shapes
import Inspector.Stepper2.SpeedLimit
import Inspector.ToolTable.RoundTrip
import Inspector.Laser.Delivery
import Inspector.ModbusTcp.Requests
import Inspector.Ngc.Assignments
import Inspector.MachineLimits.Clip
import Inspector.MotionControl.Spline
import Inspector.MotionControl.Arc
import Inspector.Gcode.WorkPosition
import Inspector.Gcode.ArcRadius
import Inspector.Gcode.CannedCycle
import Inspector.Macros.Count
import Inspector.MachineLimits.ArcTravel
import Inspector.Ngc.Names
import Inspector.Ngc.NamedAssignment
import Inspector.Planner.AxisLimits
import Inspector.Vfs.Paths
import Inspector.Gcode.BlockText
import Inspector.Ngc.ExpressionValues
import Inspector.Ngc.StringRuns
import Inspector.Ngc.FlowSafety
import Inspector.Settings.Exactness
import Inspector.Ngc.SubstitutionFits
import Inspector.NutsBolts.ReadUint
import Inspector.NutsBolts.ReadFloat
import Inspector.NutsBolts.FloatText
import Inspector.NutsBolts.Datetime
import Inspector.Streams.FileJob
import Inspector.Websocket.Decoding
import Inspector.Strutils.Entries
import Inspector.Strutils.Regex
import Inspector.Networking.Urlencode
import Inspector.Vfs.RamFile
import Inspector.Spindle.Pwm
import Inspector.Kinematics.CoreXY
import Inspector.Kinematics.DeltaJog
import Inspector.Kinematics.Polar
import Inspector.Stepper.Pipeline
import Inspector.Exclusive.Run
import Inspector.Gcode.WordOrder
import Inspector.Networking.Multipart
import Inspector.Checksum.Register
import Inspector.Settings.Dump
import Inspector.Networking.DhcpServer
