import WordStack.Session
import WordStack.Main
import WordStack.Proofs.Likeness
import WordStack.Proofs.Progress
import WordStack.Proofs.LikeRuns
import WordStack.Proofs.Uniform
import WordStack.Proofs.Context
import WordStack.Proofs.ReadOn
import WordStack.Proofs.OrdinaryWords
import WordStack.Proofs.Sound
import WordStack.Proofs.Scripted
import WordStack.Proofs.Termination
import WordStack.Proofs.CutRuns
import WordStack.Proofs.Relocation
import WordStack.Proofs.RelocatedRuns
import WordStack.Proofs.Places
import WordStack.Proofs.Cutting
import WordStack.Proofs.Bodies
import WordStack.Proofs.Compiling
import WordStack.Proofs.Alterations
import WordStack.Proofs.Course
import WordStack.Proofs.ModeDiscipline
import WordStack.Proofs.ImmediateWords
import WordStack.Proofs.EarlyBinding
import WordStack.Proofs.SerialNumbers
import WordStack.Proofs.CompileTime
import WordStack.Proofs.Outcomes
import WordStack.Proofs.Executions
import WordStack.Proofs.ErrorPlaces
import WordStack.Proofs.VariableCells
import WordStack.Proofs.NumberGrammar
import WordStack.Proofs.LookUps
import WordStack.Proofs.LetterCase
import WordStack.Proofs.CaseRuns
import WordStack.Proofs.Failures
import WordStack.Proofs.OpenDefinitions
import WordStack.Proofs.NestedRuns
import WordStack.Proofs.Written
import WordStack.Proofs.CommandRuns
import WordStack.Proofs.Lexing
import WordStack.Proofs.Flattening
import WordStack.Proofs.StackEffects
import WordStack.Proofs.Rounding
import WordStack.Proofs.TextWords
import WordStack.Proofs.PrintedNumbers
import WordStack.Proofs.StackDump
import WordStack.Proofs.Literals
import WordStack.Proofs.NamePlaces
import WordStack.Proofs.ByteOrder
import WordStack.Proofs.Listing
import WordStack.Proofs.Provenance
import WordStack.Proofs.QuotedTexts
