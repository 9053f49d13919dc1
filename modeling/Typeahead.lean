import Typeahead.FlatGrammar.Listing
import Typeahead.Language
import Typeahead.Proofs.Grammar.Meaning
import Typeahead.Proofs.Language.Refused
import Typeahead.Proofs.Parse.Completions
import Typeahead.Proofs.Parse.FailureOffset
import Typeahead.Proofs.Parse.Joins
import Typeahead.Proofs.Search.Frames
import Typeahead.Proofs.Parse.Offered
import Typeahead.Proofs.ParseTree.Gathered
import Typeahead.Proofs.ParseTree.Placed
import Typeahead.Proofs.Parse.Trees
import Typeahead.Proofs.FlatGrammar.Forms
import Typeahead.Proofs.Grammar.Lowered
import Typeahead.Proofs.ParseTree.Finished
import Typeahead.Proofs.ParseTree.Unfolded
import Typeahead.Proofs.Parse.Entries
import Typeahead.Proofs.Grammar.Recompiled
import Typeahead.Proofs.Parse.Completing
import Typeahead.Proofs.Parse.TieBreak
import Typeahead.Proofs.Parse.Finishing
import Typeahead.Proofs.Search.Stack
import Typeahead.Proofs.Language.Programs
import Typeahead.Proofs.Parse.MoreRules
import Typeahead.Proofs.Parse.Remembered
import Typeahead.Proofs.Grammar.Repeating
import Typeahead.Proofs.Parse.Looks
import Typeahead.Proofs.Parse.EntryNames
import Typeahead.Proofs.Parse.ChildNames
import Typeahead.Proofs.Parse.Replies
import Typeahead.Proofs.Search.Cutoff
import Typeahead.Proofs.Parse.Extending
import Typeahead.Proofs.Parse.Lines
import Typeahead.Proofs.Parse.Attempts
import Typeahead.Proofs.Parse.FailedNode
import Typeahead.Proofs.Pattern.RoundTrip
import Typeahead.Proofs.Completion.Rendering
import Typeahead.Proofs.FlatGrammar.Edits
import Typeahead.Proofs.Language.Composites
import Typeahead.Proofs.Language.Completers
import Typeahead.Proofs.Symbol.Stable
import Typeahead.Proofs.Symbol.Tracked
import Typeahead.Proofs.Parse.Traversing
