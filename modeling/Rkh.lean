import Rkh.Trace.Stream
import Rkh.Trace.Record
import Rkh.Trace.Frame
import Rkh.Trace.Pipeline
import Rkh.Trace.Filter
import Rkh.Trace.SlotFilter
import Rkh.Trace.SmaFilter
import Rkh.Trace.Point
import Rkh.Fwk.EvtPool
