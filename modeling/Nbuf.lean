import Nbuf.Text.PrintTerminates
import Nbuf.Schema.SchemaText
import Nbuf.Lib.Cover
import Nbuf.Schema.LayoutSound
import Nbuf.Schema.Truncation
import Nbuf.Wire.WriteInv
import Nbuf.Wire.Refinement
import Nbuf.Rpc.EchoExchange
import Nbuf.Wire.PtrWrites
import Nbuf.Wire.BuilderStr
import Nbuf.Text.Getters
import Nbuf.Text.Appends
import Nbuf.Text.ParseErrors
import Nbuf.Text.Partition
import Nbuf.Text.Literals
import Nbuf.Text.LineNumbers
import Nbuf.Text.RawPrint
import Nbuf.Text.BoolLists
import Nbuf.Text.Integers
import Nbuf.Schema.CarriedAlignment
import Nbuf.Schema.SmallestOffset
import Nbuf.Schema.Records
import Nbuf.Wire.ResizeLaw
import Nbuf.Wire.Reserve
import Nbuf.Codegen.MakePrefix
import Nbuf.Python.BoolList
import Nbuf.Python.Writer
import Nbuf.Python.Getters
import Nbuf.Wire.FailedCreates
import Nbuf.Text.TextRoundTrip
import Nbuf.Schema.BinaryReads
