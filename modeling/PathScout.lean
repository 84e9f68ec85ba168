import PathScout.Options.Reader
import PathScout.Proofs.MixedWidths
import PathScout.Proofs.DeadBindings
import PathScout.Proofs.FaithfulDiagnostics
import PathScout.Proofs.CatalogWalks
import PathScout.Proofs.RealFindings
import PathScout.Proofs.ExprRoundTrip
import PathScout.Proofs.ForwardPaths
import PathScout.Proofs.TypedBodies
import PathScout.Proofs.MemoryUpdates
import PathScout.Proofs.InvalidationClosure
import PathScout.Proofs.ExactLiveness
import PathScout.Proofs.Fingerprints
import PathScout.Proofs.Conversions
import PathScout.Proofs.DefectFreePaths
import PathScout.Proofs.AddressOrder
import PathScout.Proofs.LoopHeads
import PathScout.Proofs.GlobalInitializers
import PathScout.Proofs.UnevaluatedSizes
import PathScout.Proofs.ToldForms
import PathScout.Proofs.SpannedExprs
import PathScout.Proofs.RangeWords
import PathScout.Proofs.GroupedPaths
import PathScout.Proofs.FlatMemory
import PathScout.Proofs.SpelledTokens
