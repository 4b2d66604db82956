import Behaviour.Cursor
import Behaviour.Script.Acts
import Behaviour.Main
import Behaviour.Proofs.Unfolding
import Behaviour.Proofs.Arena
import Behaviour.Proofs.InPlace
import Behaviour.Proofs.Soundness
import Behaviour.Proofs.Resumption
import Behaviour.Proofs.Renewal
import Behaviour.Proofs.Renaming
import Behaviour.Proofs.Captives
import Behaviour.Proofs.Course
import Behaviour.Proofs.Drive
import Behaviour.Proofs.Agreement
import Behaviour.Proofs.Aim
import Behaviour.Proofs.Footprint
import Behaviour.Proofs.Rounds
import Behaviour.Proofs.Healing
import Behaviour.Proofs.Lawful
import Behaviour.Proofs.Mirror
import Behaviour.Proofs.Sweep
import Behaviour.Proofs.Delays
import Behaviour.Proofs.Awaits
import Behaviour.Proofs.Likeness
import Behaviour.Proofs.Duality
import Behaviour.Proofs.Flattening
import Behaviour.Proofs.Confinement
import Behaviour.Proofs.Refusals
import Behaviour.Proofs.Wrapping
import Behaviour.Proofs.Stacks
import Behaviour.Proofs.Lines
import Behaviour.Proofs.Legible
import Behaviour.Proofs.Promptness
import Behaviour.Proofs.Alarm
import Behaviour.Proofs.Stages
import Behaviour.Proofs.Strolling
import Behaviour.Proofs.Deadlock
import Behaviour.Proofs.Rendering
import Behaviour.Proofs.Clearing
import Behaviour.Proofs.Duel
import Behaviour.Proofs.Paces
