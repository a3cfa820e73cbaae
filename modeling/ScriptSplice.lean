import ScriptSplice.Dispatch.Survey
import ScriptSplice.Main
import ScriptSplice.Proofs.Compile.Splicing
import ScriptSplice.Proofs.Dispatch.Visits
import ScriptSplice.Proofs.Rules.Bracketing
import ScriptSplice.Proofs.Rules.Emission
import ScriptSplice.Proofs.Rules.Extension
import ScriptSplice.Proofs.Rules.Locations
import ScriptSplice.Proofs.Rules.Nesting
import ScriptSplice.Proofs.Rules.Reconstruction
import ScriptSplice.Proofs.Rules.Success
import ScriptSplice.Proofs.Tree.Roundtrip
import ScriptSplice.Tree.Equal
import ScriptSplice.Proofs.Compile.HelperCalls
import ScriptSplice.Proofs.Rules.Emitters
import ScriptSplice.Proofs.Target.Atoms
import ScriptSplice.Proofs.Rules.Account
import ScriptSplice.Proofs.Rules.AccountSplicing
import ScriptSplice.Proofs.Rules.Accounts
import ScriptSplice.Proofs.Rules.SourceLines
import ScriptSplice.Proofs.Compile.Handouts
import ScriptSplice.Proofs.Target.Occurrences
import ScriptSplice.Proofs.Target.References
import ScriptSplice.Proofs.Rules.References
import ScriptSplice.Proofs.Target.Calls
import ScriptSplice.Proofs.Rules.Order
import ScriptSplice.Proofs.Target.SourceMap
import ScriptSplice.Proofs.Number.Exact
import ScriptSplice.Proofs.Tree.Equality
import ScriptSplice.Proofs.Number.Decimals
import ScriptSplice.Proofs.Tree.Floats
import ScriptSplice.Proofs.Tree.Rereading
import ScriptSplice.Proofs.Target.Sheet
import ScriptSplice.Proofs.Rules.Options
import ScriptSplice.Proofs.Tree.Spacing
import ScriptSplice.Proofs.Dispatch.Congruence
import ScriptSplice.Proofs.Target.Grouping
import ScriptSplice.Proofs.Rules.Operators
import ScriptSplice.Proofs.Rules.Minimal
import ScriptSplice.Proofs.Target.Escapes
import ScriptSplice.Proofs.Tree.Contents
import ScriptSplice.Proofs.Tree.Openings
import ScriptSplice.Proofs.Number.Nearest
import ScriptSplice.Proofs.Number.Shortest
import ScriptSplice.Proofs.Tree.Forms
import ScriptSplice.Proofs.Tree.Numbers
import ScriptSplice.Proofs.Target.FloatLiterals
import ScriptSplice.Proofs.Diagnostics.Notices
import ScriptSplice.Proofs.Rules.ImportNames
import ScriptSplice.Proofs.Rules.ErrorPlaces
import ScriptSplice.Proofs.Rules.Deeds
import ScriptSplice.Proofs.Rules.Parsers
import ScriptSplice.Proofs.Dispatch.Walk
import ScriptSplice.Proofs.Rules.Standing
import ScriptSplice.Proofs.Rules.Headers
import ScriptSplice.Proofs.Rules.Adjacency
import ScriptSplice.Proofs.Rules.FunctionLayout
import ScriptSplice.Proofs.Compile.Wanting
import ScriptSplice.Proofs.Target.Identifiers
import ScriptSplice.Proofs.Compile.FirstUses
import ScriptSplice.Proofs.CommandLine.Runs
