import RsxInspect.Main
import RsxInspect.TokenStream
import RsxInspect.Version
import RsxInspect.Proofs.Markup.WellFormed
import RsxInspect.Proofs.Markup.Valued
import RsxInspect.Proofs.Markup.Joined
import RsxInspect.Proofs.Scan.Tiling
import RsxInspect.Proofs.Scan.Chunking
import RsxInspect.Proofs.Scan.Locality
import RsxInspect.Proofs.Scan.Sections
import RsxInspect.Proofs.Scan.CodeEnd
import RsxInspect.Proofs.Scan.Grammar
import RsxInspect.Proofs.Scan.ModeStack
import RsxInspect.Proofs.Expr.Refusal
import RsxInspect.Proofs.Expr.StringLiteral
import RsxInspect.Proofs.Expr.Layout
import RsxInspect.Proofs.Expr.Reuse
import RsxInspect.Proofs.Diagnostic.Anomaly
import RsxInspect.Proofs.Template.Lossless
import RsxInspect.Proofs.Template.Agreement
import RsxInspect.Proofs.Template.FileNesting
import RsxInspect.Proofs.Template.Soundness
import RsxInspect.Proofs.Template.Balance
import RsxInspect.Proofs.Template.Coverage
import RsxInspect.Proofs.Template.Resync
import RsxInspect.Proofs.Template.LoopHeads
import RsxInspect.Proofs.Template.Preorder
import RsxInspect.Proofs.Template.Slices
import RsxInspect.Proofs.Template.Treeless
import RsxInspect.Proofs.Template.Closing
import RsxInspect.Proofs.Template.OpenTags
import RsxInspect.Proofs.Template.ValuesRead
import RsxInspect.Proofs.Template.ErasedFiles
import RsxInspect.Proofs.Template.ShapedFiles
import RsxInspect.Proofs.Stream.BadCharacters
import RsxInspect.Proofs.Encoding.Levels
import RsxInspect.Proofs.Text.Columns
