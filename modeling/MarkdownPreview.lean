import MarkdownPreview.Main
import MarkdownPreview.Proofs.AcceptedFlags
import MarkdownPreview.Proofs.Balance
import MarkdownPreview.Proofs.BlankLine
import MarkdownPreview.Proofs.Destination
import MarkdownPreview.Proofs.EscapedOnce
import MarkdownPreview.Proofs.HeadingBelow
import MarkdownPreview.Proofs.Idempotence
import MarkdownPreview.Proofs.LineEndings
import MarkdownPreview.Proofs.LogSession
import MarkdownPreview.Proofs.LoneFence
import MarkdownPreview.Proofs.MergedFlags
import MarkdownPreview.Proofs.Nesting
import MarkdownPreview.Proofs.PlainMatcher
import MarkdownPreview.Proofs.RunSequence
import MarkdownPreview.Proofs.SavedFlags
import MarkdownPreview.Proofs.SharedLists
import MarkdownPreview.Proofs.SpanLines
import MarkdownPreview.Proofs.TableBlocks
import MarkdownPreview.Proofs.Verbatim
import MarkdownPreview.Proofs.FencePieces
import MarkdownPreview.Proofs.QuoteDepth
import MarkdownPreview.Proofs.WholeLines
import MarkdownPreview.Proofs.ReferenceSequence
import MarkdownPreview.Proofs.PageParts
import MarkdownPreview.Proofs.ConfigLines
import MarkdownPreview.Proofs.ItemGrammar
import MarkdownPreview.Proofs.DelimiterRows
