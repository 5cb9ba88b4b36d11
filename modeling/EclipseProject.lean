import EclipseProject.Main
import EclipseProject.Proofs.CommandLine.Stages
import EclipseProject.Proofs.Config.Writing
import EclipseProject.Proofs.Document.Conforming
import EclipseProject.Proofs.Setup.Answers
import EclipseProject.Proofs.Setup.DryRun
import EclipseProject.Proofs.Setup.Rerun
import EclipseProject.Proofs.Staging.Drawing
import EclipseProject.Proofs.Workspace.Preview
import EclipseProject.Proofs.Setup.RawLines
import EclipseProject.Proofs.Config.Reports
import EclipseProject.Proofs.Disk.Adding
import EclipseProject.Proofs.Path.Parents
import EclipseProject.Proofs.Workspace.Refusals
import EclipseProject.Proofs.Disk.Descending
import EclipseProject.Proofs.Workspace.Directories
import EclipseProject.Proofs.Staging.Sameness
import EclipseProject.Proofs.Workspace.Lookup
import EclipseProject.Proofs.Workspace.Reports
import EclipseProject.Proofs.Document.Preferences
import EclipseProject.Proofs.Staging.Colors
import EclipseProject.Proofs.Document.Tags
import EclipseProject.Proofs.Setup.Jars
import EclipseProject.Proofs.Setup.Attempts
