import LivePreview.Disk.Export
import LivePreview.Library.Folder
import LivePreview.Main
import LivePreview.Proofs.Session
import LivePreview.Proofs.RecordedScript
import LivePreview.Proofs.FolderView
import LivePreview.Proofs.StoredProject
import LivePreview.Proofs.SurfaceRuns
import LivePreview.Proofs.OpenedProject
import LivePreview.Proofs.Editing
import LivePreview.Proofs.EditHistory
import LivePreview.Proofs.ByteOrder
import LivePreview.Proofs.JoinedPath
import LivePreview.Proofs.Walking
import LivePreview.Proofs.FileTree
import LivePreview.Proofs.FolderMaking
import LivePreview.Proofs.CleanKeys
import LivePreview.Proofs.Exporting
import LivePreview.Proofs.Importing
import LivePreview.Proofs.ReimportedProject
import LivePreview.Proofs.ReexportedTree
import LivePreview.Proofs.SharedSlot
import LivePreview.Proofs.ResolutionCode
import LivePreview.Proofs.PageTags
import LivePreview.Proofs.FolderLibrary
import LivePreview.Proofs.BuildInputs
import LivePreview.Proofs.ImportedView
import LivePreview.Proofs.ExportFrame
import LivePreview.Proofs.BuildOrder
import LivePreview.Proofs.ModuleHints
import LivePreview.Proofs.MissedImports
import LivePreview.Proofs.JoinedLines
import LivePreview.Proofs.DefaultValues
import LivePreview.Proofs.EscapedScript
import LivePreview.Proofs.Resolution
import LivePreview.Proofs.ShownFiles
import LivePreview.Proofs.RebuiltView
import LivePreview.Proofs.ViewGrowth
import LivePreview.Proofs.Deleting
import LivePreview.Proofs.FolderNames
import LivePreview.Proofs.BuildCount
import LivePreview.Proofs.CacheUse
import LivePreview.Proofs.WrittenFile
import LivePreview.Proofs.BuildCommand
import LivePreview.Proofs.JsonGrammar
import LivePreview.Proofs.OptionsText
import LivePreview.Proofs.HostRuns
import LivePreview.Proofs.EscapedMarkup
import LivePreview.Proofs.ScriptNames
