import DirectiveTemplates.Live.Probe
import DirectiveTemplates.Main
import DirectiveTemplates.Proofs.Binding.Diagnostics
import DirectiveTemplates.Proofs.Binding.Lockstep
import DirectiveTemplates.Proofs.Binding.Resolution
import DirectiveTemplates.Proofs.Binding.Serialized
import DirectiveTemplates.Proofs.Live.Agreement
import DirectiveTemplates.Proofs.Live.ComputedText
import DirectiveTemplates.Proofs.Live.Links
import DirectiveTemplates.Proofs.Live.Forest
import DirectiveTemplates.Proofs.OrderedMap
import DirectiveTemplates.Proofs.Directive.Tables
import DirectiveTemplates.Proofs.Directive.Uncached
import DirectiveTemplates.Proofs.Live.Bodies
import DirectiveTemplates.Proofs.Live.Standing
import DirectiveTemplates.Proofs.Live.Numbering
import DirectiveTemplates.Proofs.Live.Reconciliation
import DirectiveTemplates.Proofs.Live.Repetition
import DirectiveTemplates.Proofs.Live.Showing
import DirectiveTemplates.Proofs.Live.Composites
import DirectiveTemplates.Proofs.Live.Removal
import DirectiveTemplates.Proofs.Directive.Descriptors
import DirectiveTemplates.Proofs.Binding.PathGrammar
import DirectiveTemplates.Proofs.Binding.Declared
import DirectiveTemplates.Proofs.Binding.Importing
import DirectiveTemplates.Proofs.Live.Static
import DirectiveTemplates.Proofs.Markup.Joining
import DirectiveTemplates.Proofs.Markup.RawText
import DirectiveTemplates.Proofs.Files.Descent
import DirectiveTemplates.Proofs.Binding.Requests
import DirectiveTemplates.Proofs.Source.Describing
import DirectiveTemplates.Proofs.CommandLine.Outcomes
import DirectiveTemplates.Proofs.Markup.Positions
import DirectiveTemplates.Proofs.Markup.Progress
import DirectiveTemplates.Proofs.Text.Respelling
