import FormulaEngine.Options.Setting
import FormulaEngine.Proofs.AbsoluteValue
import FormulaEngine.Proofs.ArgumentCounts
import FormulaEngine.Proofs.AssemblyImages
import FormulaEngine.Proofs.AssemblyRefusals
import FormulaEngine.Proofs.AssemblySteps
import FormulaEngine.Proofs.BackendAgreement
import FormulaEngine.Proofs.BindingPrecedence
import FormulaEngine.Proofs.CacheEntries
import FormulaEngine.Proofs.CacheHistory
import FormulaEngine.Proofs.CacheKeys
import FormulaEngine.Proofs.CacheRecency
import FormulaEngine.Proofs.CacheSources
import FormulaEngine.Proofs.CacheTransparency
import FormulaEngine.Proofs.CallSimulation
import FormulaEngine.Proofs.CaseInsensitivity
import FormulaEngine.Proofs.ConstantNames
import FormulaEngine.Proofs.CreatedFormulas
import FormulaEngine.Proofs.DeterminateEvaluation
import FormulaEngine.Proofs.ErrorPositions
import FormulaEngine.Proofs.Evaluations
import FormulaEngine.Proofs.FittingCalls
import FormulaEngine.Proofs.FixedValues
import FormulaEngine.Proofs.FoldedNodes
import FormulaEngine.Proofs.FoldingSoundness
import FormulaEngine.Proofs.FormulaOrigins
import FormulaEngine.Proofs.FunctionArities
import FormulaEngine.Proofs.InfixAcceptance
import FormulaEngine.Proofs.InfixGrammar
import FormulaEngine.Proofs.InfixWriting
import FormulaEngine.Proofs.InlinedConstants
import FormulaEngine.Proofs.InsertedBlanks
import FormulaEngine.Proofs.KnownValues
import FormulaEngine.Proofs.MachineReuse
import FormulaEngine.Proofs.MinusSigns
import FormulaEngine.Proofs.ModeAgreement
import FormulaEngine.Proofs.ModeTransparency
import FormulaEngine.Proofs.NormalForms
import FormulaEngine.Proofs.NumeralLanguage
import FormulaEngine.Proofs.NumeralText
import FormulaEngine.Proofs.PrintedTrees
import FormulaEngine.Proofs.ProgramEncoding
import FormulaEngine.Proofs.Punctuation
import FormulaEngine.Proofs.RecursiveEvaluation
import FormulaEngine.Proofs.RegistrationHistory
import FormulaEngine.Proofs.Registrations
import FormulaEngine.Proofs.RelabeledEvaluation
import FormulaEngine.Proofs.Relabeling
import FormulaEngine.Proofs.ReplacedFunctions
import FormulaEngine.Proofs.RequestEffects
import FormulaEngine.Proofs.Scanning
import FormulaEngine.Proofs.SharedTables
import FormulaEngine.Proofs.StableFormulas
import FormulaEngine.Proofs.TokenConservation
import FormulaEngine.Proofs.TokenCoverage
import FormulaEngine.Proofs.TreeSize
import FormulaEngine.Proofs.UnreadableKeys
import FormulaEngine.Proofs.WritingAssembly
import FormulaEngine.Session
import FormulaEngine.Tree.Flags
import FormulaEngine.Proofs.ProgramLayout
import FormulaEngine.Proofs.TotalOrder
import FormulaEngine.Proofs.StackHeights
import FormulaEngine.Proofs.CallRecords
import FormulaEngine.Proofs.StoredFlags
