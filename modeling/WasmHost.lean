import WasmHost.Binary.Lemmas
import WasmHost.Memory.Lemmas
import WasmHost.Store.Lemmas
import WasmHost.Table.Lemmas
import WasmHost.Spectest.Lemmas
import WasmHost.Script.Session
import WasmHost.Proofs.Interner.Numbering
import WasmHost.Proofs.Table.IndirectCall
import WasmHost.Proofs.Table.Growth
import WasmHost.Proofs.Table.Segment
import WasmHost.Proofs.Memory.Contents
import WasmHost.Proofs.Registry.Overlay
import WasmHost.Proofs.Registry.Resolution
import WasmHost.Proofs.Binary.NaN
import WasmHost.Proofs.Numeric.RoundTrip
import WasmHost.Proofs.Text.Value
import WasmHost.Proofs.Sharing.Objects
import WasmHost.Proofs.Tally.Accounting
import WasmHost.Proofs.Memory.Size
import WasmHost.Proofs.Sharing.Trace
import WasmHost.Proofs.Registry.Spectest
import WasmHost.Proofs.Sharing.Registration
import WasmHost.Proofs.Sharing.Global
import WasmHost.Proofs.Registry.Log
import WasmHost.Proofs.Numeric.ExactTruncation
import WasmHost.Proofs.Numeric.Saturation
import WasmHost.Proofs.Memory.Codec
import WasmHost.Proofs.Memory.ByteOrder
import WasmHost.Proofs.Memory.Growth
import WasmHost.Proofs.Numeric.ExactRounding
import WasmHost.Proofs.Numeric.Division
import WasmHost.Proofs.Numeric.Extremes
import WasmHost.Proofs.Safety.Host
import WasmHost.Proofs.Numeric.Rotation
import WasmHost.Proofs.Numeric.ExtremeAlgebra
import WasmHost.Proofs.Binary.Classes
import WasmHost.Proofs.Sharing.Printing
