import MiniGo.Optimize.Inline
import MiniGo.Runtime.IntegerPaths
import MiniGo.Runtime.MapIteratorSound
import MiniGo.Runtime.ChannelPressure
import MiniGo.Types.Selectors
import MiniGo.Bytecode.ValidationSound
import MiniGo.Emit.MapIteratorsSound
import MiniGo.Runtime.MapKeyEquality
import MiniGo.Runtime.PanicMachine
import MiniGo.Rpc.DispatchSound
import MiniGo.Constant.Arithmetic
import MiniGo.Rpc.RouteSetSound
import MiniGo.Runtime.Safepoint
import MiniGo.Compile.Workspace
import MiniGo.Rpc.Provisional
import MiniGo.Runtime.Handoff
import MiniGo.Runtime.Handles
import MiniGo.Rpc.RoundRobin
import MiniGo.Compile.IntegerRange
import MiniGo.Rpc.Leases
import MiniGo.Compile.LineIndex
import MiniGo.Compile.ConstGroup
import MiniGo.Types.Substitute
