import SlotEdit.Regex.Matching
import SlotEdit.Tour
import SlotEdit.Main
import SlotEdit.Proofs.Language
import SlotEdit.Proofs.Math.Parsing
import SlotEdit.Proofs.Json.Acceptance
import SlotEdit.Proofs.Json.Deletion
import SlotEdit.Proofs.Template.Batches
import SlotEdit.Proofs.Template.Sequences
import SlotEdit.Proofs.Template.Following
import SlotEdit.Proofs.Template.Valuators
import SlotEdit.Proofs.CommandLine.Keeping
import SlotEdit.Proofs.CommandLine.SettingProperties
import SlotEdit.Proofs.CommandLine.SettingSlots
import SlotEdit.Proofs.Diff.Previews
import SlotEdit.Proofs.Edit.Overlaps
import SlotEdit.Proofs.Pattern.Searching
import SlotEdit.Proofs.Pattern.Flattening
import SlotEdit.Proofs.Regex.Scanning
import SlotEdit.Proofs.Regex.Lockstep
import SlotEdit.Proofs.Regex.Spellings
import SlotEdit.Proofs.Regex.Places
import SlotEdit.Proofs.Regex.Rewriting
import SlotEdit.Proofs.Edit.Queueing
import SlotEdit.Proofs.Text.Rebasing
import SlotEdit.Proofs.Script.Expressions
import SlotEdit.Proofs.Script.Names
import SlotEdit.Proofs.Template.Faithful
import SlotEdit.Proofs.Template.Matches
import SlotEdit.Proofs.Template.Failures
import SlotEdit.Proofs.Regex.Refusals
import SlotEdit.Proofs.Template.Deletions
import SlotEdit.Proofs.Script.Concatenation
import SlotEdit.Proofs.Syntax.PlainText
import SlotEdit.Proofs.CommandLine.Outlines
import SlotEdit.Proofs.Math.Tiling
import SlotEdit.Proofs.Configuration.Sources
import SlotEdit.Proofs.Text.ByteOffsets
