import SchemaAssist.Main
import SchemaAssist.Proofs.Attributions
import SchemaAssist.Proofs.Remainder
import SchemaAssist.Proofs.Steps
import SchemaAssist.Proofs.Soundness
import SchemaAssist.Proofs.Separation
import SchemaAssist.Proofs.Repetition
import SchemaAssist.Proofs.Alternation
import SchemaAssist.Proofs.Tame
import SchemaAssist.Proofs.Criterion
import SchemaAssist.Proofs.Symbols
import SchemaAssist.Proofs.Ends
import SchemaAssist.Proofs.Overlooked
import SchemaAssist.Proofs.FalseAlarm
import SchemaAssist.Proofs.Prefixes
import SchemaAssist.Proofs.Greedy
import SchemaAssist.Proofs.Absorption
import SchemaAssist.Proofs.Steadiness
import SchemaAssist.Proofs.Overlap
import SchemaAssist.Proofs.Losses
import SchemaAssist.Proofs.Around
import SchemaAssist.Proofs.Surroundings
import SchemaAssist.Proofs.Keeping
import SchemaAssist.Proofs.Completeness
import SchemaAssist.Proofs.Offers
import SchemaAssist.Proofs.Answers
import SchemaAssist.Proofs.Catalog
import SchemaAssist.Proofs.Places
import SchemaAssist.Proofs.Suggestions
import SchemaAssist.Proofs.Unordered
import SchemaAssist.Proofs.Precedence
import SchemaAssist.Proofs.Entries
import SchemaAssist.Proofs.Visits
import SchemaAssist.Proofs.Surveys
import SchemaAssist.Proofs.Loads
import SchemaAssist.Proofs.Adoption
import SchemaAssist.Proofs.Coherence
import SchemaAssist.Proofs.Sight
import SchemaAssist.Proofs.Cuts
import SchemaAssist.Proofs.Caret
import SchemaAssist.Proofs.Refusals
import SchemaAssist.Proofs.Spellings
import SchemaAssist.Proofs.Search
import SchemaAssist.Proofs.Degraded
import SchemaAssist.Proofs.Placement
import SchemaAssist.Proofs.Behind
import SchemaAssist.Proofs.Contributions
import SchemaAssist.Proofs.Resolution
import SchemaAssist.Proofs.Integrity
import SchemaAssist.Proofs.Preorder
import SchemaAssist.Proofs.StandIns
import SchemaAssist.Proofs.Arrangement
import SchemaAssist.Proofs.Lookups
import SchemaAssist.Proofs.Derivations
import SchemaAssist.Proofs.InUse
import SchemaAssist.Proofs.Retention
import SchemaAssist.Proofs.Extensions
import SchemaAssist.Proofs.Agreement
import SchemaAssist.Proofs.AnyOrder
import SchemaAssist.Proofs.Nesting
import SchemaAssist.Proofs.StartTags
import SchemaAssist.Proofs.Scoping
import SchemaAssist.Proofs.Pruning
import SchemaAssist.Proofs.Vacancy
import SchemaAssist.Proofs.Depth
import SchemaAssist.Proofs.Heredity
import SchemaAssist.Proofs.Truncation
import SchemaAssist.Proofs.Flattening
import SchemaAssist.Proofs.Marking
import SchemaAssist.Proofs.Circles
import SchemaAssist.Proofs.Grounding
import SchemaAssist.Proofs.Asking
import SchemaAssist.Proofs.Heads
import SchemaAssist.Proofs.Likeness
import SchemaAssist.Proofs.Faithful
import SchemaAssist.Proofs.AttributeLists
import SchemaAssist.Proofs.Inclusion
import SchemaAssist.Proofs.Numbering
import SchemaAssist.Proofs.Assembly
import SchemaAssist.Proofs.Handles
import SchemaAssist.Proofs.Listings
import SchemaAssist.Proofs.Wildcards
import SchemaAssist.Proofs.Walks
import SchemaAssist.Proofs.Overriding
