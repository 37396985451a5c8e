import VisitorCounter.Distinct
import VisitorCounter.Contention
import VisitorCounter.LostUpdate
import VisitorCounter.Clock
import VisitorCounter.Size
import VisitorCounter.Sequential
import VisitorCounter.Revisit
import VisitorCounter.Conversation
import VisitorCounter.Identity
import VisitorCounter.Alignment
import VisitorCounter.Progress
import VisitorCounter.Linear
import VisitorCounter.Execution
import VisitorCounter.Privacy
import VisitorCounter.Configuration
