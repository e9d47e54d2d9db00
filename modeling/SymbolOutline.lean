import SymbolOutline.Lsp.Regions
import SymbolOutline.Lsp.Symbols
import SymbolOutline.Session.Description
import SymbolOutline.Settings.Json
import SymbolOutline.Settings.Yaml
import SymbolOutline.Text.Buffer
import SymbolOutline.View
import SymbolOutline.Wire
import SymbolOutline.Proofs.Forest
import SymbolOutline.Proofs.Paths
import SymbolOutline.Proofs.Expansion
import SymbolOutline.Proofs.View
import SymbolOutline.Proofs.Badges
import SymbolOutline.Proofs.Nesting
import SymbolOutline.Proofs.Provenance
import SymbolOutline.Proofs.Reconcile
import SymbolOutline.Proofs.Insertion
import SymbolOutline.Proofs.Sync
import SymbolOutline.Proofs.Tickets
import SymbolOutline.Proofs.Shelf
import SymbolOutline.Proofs.Address
import SymbolOutline.Proofs.Recount
import SymbolOutline.Proofs.Matching
import SymbolOutline.Proofs.Folds
import SymbolOutline.Proofs.Grammar
import SymbolOutline.Proofs.Escapes
import SymbolOutline.Proofs.Readings
import SymbolOutline.Proofs.Carries
import SymbolOutline.Proofs.Descent
import SymbolOutline.Proofs.Layout
import SymbolOutline.Proofs.Switches
import SymbolOutline.Proofs.Following
import SymbolOutline.Proofs.WorkingSets
import SymbolOutline.Proofs.Lines
import SymbolOutline.Proofs.Placement
import SymbolOutline.Proofs.Partners
import SymbolOutline.Proofs.Ropes
import SymbolOutline.Proofs.LineBreaks
import SymbolOutline.Proofs.Edits
import SymbolOutline.Proofs.Walks
import SymbolOutline.Proofs.Names
import SymbolOutline.Proofs.Renaming
import SymbolOutline.Proofs.Misnaming
import SymbolOutline.Proofs.Scrolling
import SymbolOutline.Proofs.Attaching
import SymbolOutline.Proofs.Listeners
import SymbolOutline.Proofs.WireForms
import SymbolOutline.Proofs.Hits
import SymbolOutline.Proofs.Resting
import SymbolOutline.Proofs.Tiebreaks
import SymbolOutline.Proofs.Disguise
import SymbolOutline.Proofs.Shuffles
import SymbolOutline.Proofs.Moves
import SymbolOutline.Proofs.Fitting
import SymbolOutline.Proofs.Idempotence
import SymbolOutline.Proofs.Ancestry
import SymbolOutline.Proofs.PostOrder
import SymbolOutline.Proofs.Closest
import SymbolOutline.Proofs.Innermost
import SymbolOutline.Proofs.Reveal
import SymbolOutline.Proofs.Retries
import SymbolOutline.Proofs.Silence
import SymbolOutline.Bookmark.Stamped
import SymbolOutline.Proofs.Afresh
import SymbolOutline.Proofs.Bookmarks
import SymbolOutline.Proofs.Effects
import SymbolOutline.Proofs.Stamps
import SymbolOutline.Proofs.EmptyNames
import SymbolOutline.Proofs.Lookups
import SymbolOutline.Proofs.Answers
