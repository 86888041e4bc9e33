import JsonRules.Binary64.Bits
import JsonRules.Operator.Sample
import JsonRules.Proofs.Acceptance
import JsonRules.Proofs.Accesses
import JsonRules.Proofs.Admission
import JsonRules.Proofs.Blame
import JsonRules.Proofs.BuiltinRegistry
import JsonRules.Proofs.ComparisonChains
import JsonRules.Proofs.DataReads
import JsonRules.Proofs.DepthAccounting
import JsonRules.Proofs.Derivation
import JsonRules.Proofs.DisplayText
import JsonRules.Proofs.Duality
import JsonRules.Proofs.Extrema
import JsonRules.Proofs.Guarantee
import JsonRules.Proofs.HostDocuments
import JsonRules.Proofs.IndexReferences
import JsonRules.Proofs.IntegerTexts
import JsonRules.Proofs.Isolation
import JsonRules.Proofs.JoinedSums
import JsonRules.Proofs.KeyOrder
import JsonRules.Proofs.LatestRegistration
import JsonRules.Proofs.Laziness
import JsonRules.Proofs.ListedOperands
import JsonRules.Proofs.LiteralValues
import JsonRules.Proofs.LogBrackets
import JsonRules.Proofs.LooseEquality
import JsonRules.Proofs.MissingKeys
import JsonRules.Proofs.NamesInUse
import JsonRules.Proofs.NestedChoices
import JsonRules.Proofs.Nesting
import JsonRules.Proofs.NestingLimit
import JsonRules.Proofs.Nodes
import JsonRules.Proofs.NumberTexts
import JsonRules.Proofs.NumericOperands
import JsonRules.Proofs.NumericStrings
import JsonRules.Proofs.OpenRules
import JsonRules.Proofs.Operations
import JsonRules.Proofs.OperatorFit
import JsonRules.Proofs.Outcome
import JsonRules.Proofs.Quotas
import JsonRules.Proofs.Quoting
import JsonRules.Proofs.Rejections
import JsonRules.Proofs.RepeatedKeys
import JsonRules.Proofs.Rounding
import JsonRules.Proofs.SessionFrames
import JsonRules.Proofs.SharedRegistries
import JsonRules.Proofs.ShortestDecimal
import JsonRules.Proofs.SourceTrees
import JsonRules.Proofs.StatelessSessions
import JsonRules.Proofs.Statelessness
import JsonRules.Proofs.StoredText
import JsonRules.Proofs.StrictEquality
import JsonRules.Proofs.Surroundings
import JsonRules.Proofs.Synonyms
import JsonRules.Proofs.TextParts
import JsonRules.Proofs.Totality
import JsonRules.Proofs.TwoReadings
import JsonRules.Proofs.UniqueKeys
import JsonRules.Proofs.ValueTrees
import JsonRules.Proofs.Visits
import JsonRules.Proofs.WholeNumerals
import JsonRules.Proofs.WrittenNumbers
import JsonRules.Proofs.WrittenValues
import JsonRules.Session
