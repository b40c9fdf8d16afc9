import StreamLang.Settings.Document
import StreamLang.Stream.Canonical
import StreamLang.Workspace
import StreamLang.Proofs.Completion.Completeness
import StreamLang.Proofs.Completion.Validity
import StreamLang.Proofs.Stream.Expected
import StreamLang.Proofs.Completion.Appending
import StreamLang.Proofs.Completion.Agreement
import StreamLang.Proofs.Completion.Strategies
import StreamLang.Proofs.Completion.Locality
import StreamLang.Proofs.Completion.Inference
import StreamLang.Proofs.Completion.Filling
import StreamLang.Proofs.Completion.Precedence
import StreamLang.Proofs.Completion.Reordering
import StreamLang.Proofs.Completion.TrailingBlanks
import StreamLang.Proofs.Completion.Detail
import StreamLang.Proofs.Registry.Contents
import StreamLang.Proofs.Coordinates
import StreamLang.Proofs.Path
import StreamLang.Proofs.Repository.Distinct
import StreamLang.Proofs.Text.LineBytes
import StreamLang.Proofs.Stream.Report
import StreamLang.Proofs.Stream.Outline
import StreamLang.Proofs.Stream.Spacing
