import ContextFree.Demonstration
import ContextFree.Grammar.Derivation
import ContextFree.Main
import ContextFree.OrderedSet.PowerSet
import ContextFree.Proofs.Acceptance
import ContextFree.Proofs.Blame
import ContextFree.Proofs.DirectRemoval
import ContextFree.Proofs.FormalDefinition
import ContextFree.Proofs.Halving
import ContextFree.Proofs.Idempotence
import ContextFree.Proofs.IntroducedNames
import ContextFree.Proofs.LeadingCycles
import ContextFree.Proofs.Legibility
import ContextFree.Proofs.Mirroring
import ContextFree.Proofs.NamesInUse
import ContextFree.Proofs.Normalization
import ContextFree.Proofs.PruningOutcome
import ContextFree.Proofs.Regrouping
import ContextFree.Proofs.StartIsolation
import ContextFree.Proofs.Subsets
import ContextFree.Proofs.TreatmentOrder
import ContextFree.Proofs.DerivationLength
import ContextFree.Proofs.CanonicalForm
import ContextFree.Proofs.NullableSearch
import ContextFree.Proofs.FreshSearch
import ContextFree.Proofs.PurelyNullableSearch
import ContextFree.Proofs.ErasingRounds
import ContextFree.Proofs.LeadingOrder
