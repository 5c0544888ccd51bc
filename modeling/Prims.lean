import Prims.Mesher.Basic
import Prims.Shape.Record
import Prims.Proofs.Delaunay.Triangulation
import Prims.Proofs.Sweep.Closed
import Prims.Proofs.Profile.Pierced
import Prims.Proofs.Mesh.Edits
import Prims.Proofs.Sculpt.Grid
import Prims.Proofs.Mesher.Delivery
import Prims.Proofs.Mesher.Stages
import Prims.Proofs.Mesher.Influence
import Prims.Proofs.Mesher.Skipped
import Prims.Proofs.Mesher.Normals
import Prims.Proofs.Hull.Difference
import Prims.Proofs.Number.Units
import Prims.Proofs.Sculpt.Halving
import Prims.Proofs.Profile.Wedge
import Prims.Proofs.Profile.CutRange
import Prims.Proofs.Profile.Hollow
import Prims.Proofs.Mesh.Removal
import Prims.Proofs.Sweep.Segments
import Prims.Proofs.Hull.Edits
import Prims.Proofs.Hull.Containment
import Prims.Proofs.Mesher.Registration
import Prims.Proofs.Shape.Record
import Prims.Proofs.Delaunay.Circumcircle
import Prims.Proofs.Triangulation.Cavity
import Prims.Proofs.Sphere.Sharing
