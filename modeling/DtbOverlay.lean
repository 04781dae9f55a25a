import DtbOverlay.Basic
import DtbOverlay.Header
import DtbOverlay.OffsetPtr
import DtbOverlay.Assume
import DtbOverlay.NextTag
import DtbOverlay.NextNode
import DtbOverlay.FindString
import DtbOverlay.Encoding
import DtbOverlay.RecordTag
import DtbOverlay.RoundTrip
import DtbOverlay.Traversal
import DtbOverlay.Subnode
import DtbOverlay.Frame
import DtbOverlay.Progress
import DtbOverlay.NodeOffset
import DtbOverlay.Termination
import DtbOverlay.AssumeTraversal
import DtbOverlay.ErrorCodes
import DtbOverlay.Move
