import PdfFilters.Proofs.Chunking
import PdfFilters.Proofs.Lifecycle
import PdfFilters.Proofs.Limit
import PdfFilters.Proofs.Lzw.Beyond
import PdfFilters.Proofs.Lzw.BitStream
import PdfFilters.Proofs.Lzw.Checked
import PdfFilters.Proofs.Lzw.Inverse
import PdfFilters.Proofs.Phases
import PdfFilters.Proofs.Predicted
import PdfFilters.Proofs.Rows.Causal
import PdfFilters.Proofs.Rows.Checked
import PdfFilters.Proofs.Rows.CheckedSums
import PdfFilters.Proofs.Rows.Refusal
import PdfFilters.Proofs.Rows.RunningSums
import PdfFilters.Proofs.Runs
import PdfFilters.Proofs.Served
import PdfFilters.Proofs.Support
import PdfFilters.Proofs.Text.Checked
import PdfFilters.Proofs.Text.HexRules
import PdfFilters.Proofs.Text.Variants
import PdfFilters.Proofs.Truncation
import PdfFilters.Proofs.UnknownPredictor
import PdfFilters.Proofs.Unpredicted
import PdfFilters.Proofs.WholeStream
