import TreeBackend.Main
import TreeBackend.Proofs.AcceptedBodies
import TreeBackend.Proofs.BlockForms
import TreeBackend.Proofs.ConflictGraph
import TreeBackend.Proofs.EventOrder
import TreeBackend.Proofs.FaultPlaces
import TreeBackend.Proofs.IssuedIds
import TreeBackend.Proofs.MethodEntries
import TreeBackend.Proofs.NormalForms
import TreeBackend.Proofs.RemovableSpills
import TreeBackend.Proofs.SelectedBodies
import TreeBackend.Proofs.SessionIndependence
import TreeBackend.Proofs.SpillSlots
