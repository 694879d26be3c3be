import FlowTyping.Json.Read
import FlowTyping.Main
import FlowTyping.Proofs.Appending
import FlowTyping.Proofs.Blame
import FlowTyping.Proofs.ByHand
import FlowTyping.Proofs.CallCache
import FlowTyping.Proofs.CallForms
import FlowTyping.Proofs.CallOrder
import FlowTyping.Proofs.Callers
import FlowTyping.Proofs.Choices
import FlowTyping.Proofs.Continuing
import FlowTyping.Proofs.DepthLimit
import FlowTyping.Proofs.Frame
import FlowTyping.Proofs.FrontEnds
import FlowTyping.Proofs.InRange
import FlowTyping.Proofs.Joins
import FlowTyping.Proofs.JsonForm
import FlowTyping.Proofs.LineLookup
import FlowTyping.Proofs.Listed
import FlowTyping.Proofs.LocalNames
import FlowTyping.Proofs.LoopClosure
import FlowTyping.Proofs.Merging
import FlowTyping.Proofs.Numbering
import FlowTyping.Proofs.OneLine
import FlowTyping.Proofs.Parenthesized
import FlowTyping.Proofs.Paths
import FlowTyping.Proofs.Positions
import FlowTyping.Proofs.Renumbering
import FlowTyping.Proofs.Reports
import FlowTyping.Proofs.Respacing
import FlowTyping.Proofs.RoundTrip
import FlowTyping.Proofs.Scanning
import FlowTyping.Proofs.ScopeRuns
import FlowTyping.Proofs.Tiling
