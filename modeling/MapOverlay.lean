import MapOverlay.Drawing.Build
import MapOverlay.Index.Census
import MapOverlay.Overlay.Draw
import MapOverlay.Overlay.Edit
import MapOverlay.Overlay.Summary
import MapOverlay.Proofs.Index.Placement
import MapOverlay.Proofs.Index.Replacement
import MapOverlay.Proofs.Index.History
import MapOverlay.Proofs.Index.Pruning
import MapOverlay.Proofs.Overlay.Reachable
import MapOverlay.Proofs.Overlay.Refinement
import MapOverlay.Proofs.Overlay.Walk
import MapOverlay.Proofs.Overlay.Invalidation
import MapOverlay.Proofs.Overlay.Truncation
import MapOverlay.Proofs.Overlay.EditQueue
import MapOverlay.Proofs.Overlay.LastWriter
import MapOverlay.Proofs.Drawing.Picture
import MapOverlay.Proofs.Drawing.Painter
import MapOverlay.Proofs.Drawing.Level
import MapOverlay.Proofs.Drawing.Faults
import MapOverlay.Proofs.Number.Arithmetic
import MapOverlay.Proofs.Number.Computed
import MapOverlay.Proofs.Number.Floor
import MapOverlay.Proofs.Tile.Grid
import MapOverlay.Proofs.Tile.Locate
import MapOverlay.Proofs.Overlay.Trace
import MapOverlay.Proofs.Tile.Partition
import MapOverlay.Proofs.Drawing.Precision
import MapOverlay.Proofs.Number.DepthOrder
import MapOverlay.Proofs.Drawing.Ending
import MapOverlay.Proofs.Drawing.Stacking
import MapOverlay.Proofs.Index.Conservation
