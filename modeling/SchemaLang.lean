import SchemaLang.FileSystem.Memory
import SchemaLang.Main
import SchemaLang.Proofs.Numbering
import SchemaLang.Proofs.Acceptance
import SchemaLang.Proofs.MissingCloser
import SchemaLang.Proofs.TagRecovery
import SchemaLang.Proofs.BracedBodies
import SchemaLang.Proofs.Concatenation
import SchemaLang.Proofs.PrefixStability
import SchemaLang.Proofs.TreeFromLexemes
import SchemaLang.Proofs.Incompleteness
import SchemaLang.Proofs.NestingBound
import SchemaLang.Proofs.LayoutIndependence
import SchemaLang.Proofs.LocalNames
import SchemaLang.Proofs.Cascades
import SchemaLang.Proofs.Unresolved
import SchemaLang.Proofs.Fitting
import SchemaLang.Proofs.ImportSearch
import SchemaLang.Proofs.MoreRoots
import SchemaLang.Proofs.TwoHops
import SchemaLang.Proofs.NamedFields
import SchemaLang.Proofs.TokenTiling
import SchemaLang.Proofs.Saving
import SchemaLang.Proofs.ProjectRoots
import SchemaLang.Proofs.ArenaChecking
import SchemaLang.Proofs.Cutting
import SchemaLang.Proofs.Anatomy
import SchemaLang.Proofs.Suggestions
import SchemaLang.Proofs.MendedNames
import SchemaLang.Proofs.EnumLiterals
import SchemaLang.Proofs.Innermost
import SchemaLang.Proofs.Height
import SchemaLang.Proofs.Progress
import SchemaLang.Proofs.SilentFields
import SchemaLang.Proofs.Positions
import SchemaLang.Proofs.RootLines
import SchemaLang.Proofs.RepeatedRoots
import SchemaLang.Proofs.WalkedImports
import SchemaLang.Proofs.Carets
import SchemaLang.Proofs.MaximalTokens
import SchemaLang.Proofs.PositionOrder
import SchemaLang.Proofs.SystemRoots
