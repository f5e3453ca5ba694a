import Rdlt.Connector.Moves
import Rdlt.Connector.Text
import Rdlt.Connector.SegmentWords
import Rdlt.Engine.Parts
import Rdlt.Engine.Coordinator.Laws
import Rdlt.Engine.Coordinator.Pressure
import Rdlt.Engine.FlushLaws
import Rdlt.Engine.Handoff.Counts
import Rdlt.Engine.Lane.Flushed
import Rdlt.Engine.Sequences
import Rdlt.Files.Compact
import Rdlt.Identity.Numbers
import Rdlt.Identity.Sound
import Rdlt.Json.Strings
import Rdlt.Memory.Once
import Rdlt.Merge.Eager
import Rdlt.Merge.TruncateTies
import Rdlt.Runs.Counted
import Rdlt.Types.Preorder
import Rdlt.Wire.Flow
